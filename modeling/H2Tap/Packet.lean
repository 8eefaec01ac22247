import H2Tap.Address

/-!
# Packets

`pkt.rs`: an Ethernet frame is parsed down to a TCP segment, and one is built from a segment's
parts. Every byte that is read is known to be there: the bounds are part of the terms. The
accumulator of the checksums is unbounded here.
-/

namespace H2Tap

/-- A packet as it is captured: its timestamp and its bytes. -/
abbrev Packet := Nat × Bytes

/-- The `n` bytes of `b` from `off` on. -/
def octetsAt (b : Bytes) (off n : Nat) (h : off + n ≤ b.length) : Octets n :=
  ⟨(b.drop off).take n, by rw [List.length_take, List.length_drop]; omega⟩

/-! ## Segments -/

namespace TcpFlags

def fin : UInt8 := 0x01
def syn : UInt8 := 0x02
def rst : UInt8 := 0x04
def psh : UInt8 := 0x08
def ack : UInt8 := 0x10

end TcpFlags

/-- `TcpSegment`, without the addresses. -/
structure TcpSegment where
  seq : Seq
  flags : UInt8
  payload : Bytes
  deriving DecidableEq, Repr

/-- `TcpSegment::has`. -/
def TcpSegment.has (seg : TcpSegment) (flag : UInt8) : Bool := seg.flags &&& flag != 0

/-- A bare SYN, with which a connection begins. -/
def TcpSegment.freshSyn (seg : TcpSegment) : Bool := seg.has TcpFlags.syn && !seg.has TcpFlags.ack

/-- `TcpSegment` as it is parsed, with the addresses and the acknowledgement. -/
structure EthSegment extends TcpSegment where
  ethDst : Octets 6
  ethSrc : Octets 6
  src : SocketAddr
  dst : SocketAddr
  ackSeq : Seq
  deriving DecidableEq

/-! ## Parsing -/

namespace Pkt

def ethertypeIpv4 : UInt16 := 0x0800
def ethertypeIpv6 : UInt16 := 0x86dd
def ethertypeVlan : UInt16 := 0x8100
def ethertypeQinq : UInt16 := 0x88a8
def ipprotoTcp : UInt8 := 6

/-- `be16`. -/
def be16 (b : Bytes) (h : 2 ≤ b.length) : UInt16 := (fromBeBytes [b[0], b[1]]).toUInt16

/-- `be32`. -/
def be32 (b : Bytes) (h : 4 ≤ b.length) : Seq :=
  BitVec.ofNat 32 (fromBeBytes [b[0], b[1], b[2], b[3]])

/-- `get(off..)`. -/
def getFrom (b : Bytes) (off : Nat) : Option Bytes :=
  if off ≤ b.length then some (b.drop off) else none

/-- Skip any number of VLAN tags: where the payload starts and what it is. -/
def skipVlanTags (frame : Bytes) (off : Nat) (ethertype : UInt16) : Option (Nat × UInt16) :=
  if ethertype = ethertypeVlan ∨ ethertype = ethertypeQinq then
    if h : frame.length < off + 4 then none
    else skipVlanTags frame (off + 4)
      (be16 (frame.drop (off + 2)) (by rw [List.length_drop]; omega))
  else some (off, ethertype)
termination_by frame.length - off

/-- The source, the destination, the bytes of the TCP segment and its length after the IP header. -/
abbrev IpPayload := IpAddr × IpAddr × Bytes × Nat

/-- `parse_ipv4`. -/
def parseIpv4 (frame : Bytes) (off : Nat) : Option IpPayload := do
  let ip ← getFrom frame off
  if h : ip.length < 20 then none
  else if ip[0] >>> 4 ≠ 4 then none
  else
    let ihl := (ip[0] &&& 0x0f).toNat * 4
    if ihl < 20 ∨ ip.length < ihl then none
    -- a fragment, also the first one
    else if be16 (ip.drop 6) (by rw [List.length_drop]; omega) &&& 0x3fff ≠ 0 then none
    else if ip[9] ≠ ipprotoTcp then none
    else
      let totalLen := (be16 (ip.drop 2) (by rw [List.length_drop]; omega)).toNat
      if totalLen < ihl then none
      else
        let src := IpAddr.v4 (octetsAt ip 12 4 (by omega))
        let dst := IpAddr.v4 (octetsAt ip 16 4 (by omega))
        return (src, dst, ← getFrom ip ihl, totalLen - ihl)

/-- The walk over the extension headers of IPv6: where the TCP segment starts and how long it is. -/
def skipExtensions (ip : Bytes) (next : UInt8) (cur remaining : Nat) : Option (Nat × Nat) :=
  if next = ipprotoTcp then some (cur, remaining)
  -- hop-by-hop, routing, destination options, mobility
  else if next = 0 ∨ next = 43 ∨ next = 60 ∨ next = 135 then
    if h : cur + 2 ≤ ip.length then
      let len := (ip[cur + 1].toNat + 1) * 8
      if remaining < len then none
      else skipExtensions ip ip[cur] (cur + len) (remaining - len)
    else none
  else none
termination_by remaining

/-- `parse_ipv6`. -/
def parseIpv6 (frame : Bytes) (off : Nat) : Option IpPayload := do
  let ip ← getFrom frame off
  if h : ip.length < 40 then none
  else if ip[0] >>> 4 ≠ 6 then none
  else
    let payloadLen := (be16 (ip.drop 4) (by rw [List.length_drop]; omega)).toNat
    let (cur, remaining) ← skipExtensions ip ip[6] 40 payloadLen
    let src := IpAddr.v6 (octetsAt ip 8 16 (by omega))
    let dst := IpAddr.v6 (octetsAt ip 24 16 (by omega))
    return (src, dst, ← getFrom ip cur, remaining)

/-- The TCP header of `parse_ethernet`. -/
def parseTcp (ethDst ethSrc : Octets 6) (srcIp dstIp : IpAddr) (l4 : Bytes) (l4Len : Nat) :
    Option EthSegment :=
  if h : l4.length < 20 then none
  else if l4Len < 20 then none
  else
    let dataOff := (l4[12] >>> 4).toNat * 4
    if dataOff < 20 ∨ dataOff > l4Len ∨ dataOff > l4.length then none
    else some {
      seq := be32 (l4.drop 4) (by rw [List.length_drop]; omega)
      flags := l4[13]
      payload := (l4.take (min l4Len l4.length)).drop dataOff
      ethDst := ethDst
      ethSrc := ethSrc
      src := ⟨srcIp, be16 l4 (by omega)⟩
      dst := ⟨dstIp, be16 (l4.drop 2) (by rw [List.length_drop]; omega)⟩
      ackSeq := be32 (l4.drop 8) (by rw [List.length_drop]; omega) }

/-- `parse_ethernet`. -/
def parseEthernet (frame : Bytes) : Option EthSegment :=
  if h : frame.length < 14 then none
  else do
    let (off, ethertype) ←
      skipVlanTags frame 14 (be16 (frame.drop 12) (by rw [List.length_drop]; omega))
    let (src, dst, l4, l4Len) ←
      if ethertype = ethertypeIpv4 then parseIpv4 frame off
      else if ethertype = ethertypeIpv6 then parseIpv6 frame off
      else none
    parseTcp (octetsAt frame 0 6 (by omega)) (octetsAt frame 6 6 (by omega)) src dst l4 l4Len

/-! ## Synthesis -/

/-- What stays constant across the packets of a direction. -/
structure Endpoint where
  ethDst : Octets 6
  ethSrc : Octets 6
  src : SocketAddr
  dst : SocketAddr
  deriving DecidableEq

/-- `Endpoint::reversed`. -/
def Endpoint.reversed (ep : Endpoint) : Endpoint := ⟨ep.ethSrc, ep.ethDst, ep.dst, ep.src⟩

/-- `sum16`. -/
def sum16 : Bytes → Nat → Nat
  | hi :: lo :: rest, acc => sum16 rest (acc + fromBeBytes [hi, lo])
  | [hi], acc => acc + hi.toNat * 256
  | [], acc => acc

/-- `fold`: the one's complement of the one's-complement sum. -/
def fold (acc : Nat) : UInt16 :=
  if acc / 2 ^ 16 = 0 then ~~~acc.toUInt16 else fold (acc % 2 ^ 16 + acc / 2 ^ 16)
termination_by acc
decreasing_by omega

/-- The sum over the pseudo-header of the packet's IP version. -/
def pseudoHeaderSum (ep : Endpoint) (tcpLen : Nat) : Nat :=
  match ep.src.ip, ep.dst.ip with
  | .v4 s, .v4 d => sum16 d.val (sum16 s.val 0) + ipprotoTcp.toNat + tcpLen
  | .v6 s, .v6 d =>
      sum16 d.val (sum16 s.val 0) + tcpLen / 2 ^ 16 + tcpLen % 2 ^ 16 + ipprotoTcp.toNat
  | _, _ => 0

/-- The TCP segment of `build_tcp_packet`, with its checksum. -/
def tcpBytes (ep : Endpoint) (seq ack : Seq) (flags : UInt8) (window checksum : UInt16)
    (payload : Bytes) : Bytes :=
  toBeBytes 2 ep.src.port.toNat ++ toBeBytes 2 ep.dst.port.toNat ++ toBeBytes 4 seq.toNat ++
    toBeBytes 4 ack.toNat ++ [5 * 16, flags] ++ toBeBytes 2 window.toNat ++
    toBeBytes 2 checksum.toNat ++ [0, 0] ++ payload

/-- The IPv4 header of `build_tcp_packet`, with its checksum. -/
def ipv4Bytes (src dst : Octets 4) (ipId : UInt16) (tcpLen : Nat) (checksum : UInt16) : Bytes :=
  [0x45, 0] ++ toBeBytes 2 (20 + tcpLen) ++ toBeBytes 2 ipId.toNat ++ toBeBytes 2 0x4000 ++
    [64, ipprotoTcp] ++ toBeBytes 2 checksum.toNat ++ src.val ++ dst.val

/-- The IPv6 header of `build_tcp_packet`. -/
def ipv6Bytes (src dst : Octets 16) (tcpLen : Nat) : Bytes :=
  [0x60, 0, 0, 0] ++ toBeBytes 2 tcpLen ++ [ipprotoTcp, 64] ++ src.val ++ dst.val

/-- `build_tcp_packet`. The checksums are computed over a placeholder of zero. -/
def buildTcpPacket (ep : Endpoint) (seq ack : Seq) (flags : UInt8) (window ipId : UInt16)
    (payload : Bytes) : Bytes :=
  let unsigned := tcpBytes ep seq ack flags window 0 payload
  let tcp := tcpBytes ep seq ack flags window
    (fold (sum16 unsigned (pseudoHeaderSum ep unsigned.length))) payload
  match ep.src.ip, ep.dst.ip with
  | .v4 s, .v4 d =>
      ep.ethDst.val ++ ep.ethSrc.val ++ toBeBytes 2 ethertypeIpv4.toNat ++
        ipv4Bytes s d ipId tcp.length (fold (sum16 (ipv4Bytes s d ipId tcp.length 0) 0)) ++ tcp
  | .v6 s, .v6 d =>
      ep.ethDst.val ++ ep.ethSrc.val ++ toBeBytes 2 ethertypeIpv6.toNat ++
        ipv6Bytes s d tcp.length ++ tcp
  | _, _ => []

/-! ## Reference endpoints -/

/-- The client of the reference packets. -/
def clientAddr : SocketAddr := ⟨.v4 ⟨[10, 0, 0, 1], rfl⟩, 41234⟩

/-- The server of the reference packets. -/
def serverAddr : SocketAddr := ⟨.v4 ⟨[10, 0, 0, 2], rfl⟩, 7777⟩

/-- The client's side of the reference packets. -/
def clientEndpoint : Endpoint where
  ethDst := ⟨[2, 0, 0, 0, 0, 2], rfl⟩
  ethSrc := ⟨[2, 0, 0, 0, 0, 1], rfl⟩
  src := clientAddr
  dst := serverAddr

end Pkt

end H2Tap
