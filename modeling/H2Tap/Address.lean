import H2Tap.Frame

/-!
# Addresses

`IpAddr` and `SocketAddr` as the repository uses them: ordered, so that the two directions of a
connection share one key, and shown as text, which is how a snapshot names the endpoints.
`key_of_eq_iff` says that a key tells exactly the pairs of endpoints apart.
-/

namespace H2Tap

/-- A string of `n` bytes: `[u8; n]`. -/
abbrev Octets (n : Nat) := { b : Bytes // b.length = n }

/-- `IpAddr`. -/
inductive IpAddr where
  | v4 (octets : Octets 4)
  | v6 (octets : Octets 16)
  deriving DecidableEq

/-- `SocketAddr`, and the pairs of an address and a port that stand for it. -/
structure SocketAddr where
  ip : IpAddr
  port : UInt16
  deriving DecidableEq

/-! ## Order -/

/-- The place of an address in the order of `IpAddr`: version 4 comes first, and octets compare
from the left. -/
def IpAddr.rank : IpAddr → Nat
  | .v4 octets => fromBeBytes octets.val
  | .v6 octets => 2 ^ 32 + fromBeBytes octets.val

/-- `(a.0, a.1) <= (b.0, b.1)`. -/
def SocketAddr.le (a b : SocketAddr) : Bool :=
  decide (a.ip.rank < b.ip.rank) || a.ip.rank == b.ip.rank && decide (a.port ≤ b.port)

/-- What a connection is looked up by. -/
abbrev Key := SocketAddr × SocketAddr

/-- `key_of`: both directions of a connection map to one key. -/
def keyOf (a b : SocketAddr) : Key := if a.le b then (a, b) else (b, a)

theorem rank_inj {a b : IpAddr} (h : a.rank = b.rank) : a = b := by
  have hlow : ∀ octets : Octets 4, fromBeBytes octets.val < 2 ^ 32 := by
    intro octets
    have hbound := from_be_bytes_lt octets.val
    rw [octets.property] at hbound
    exact hbound
  cases a with
  | v4 a =>
      cases b with
      | v4 b => exact congrArg IpAddr.v4 (Subtype.ext (from_be_bytes_inj
          (a.property.trans b.property.symm) h))
      | v6 b =>
          have ha := hlow a
          simp only [IpAddr.rank] at h
          omega
  | v6 a =>
      cases b with
      | v4 b =>
          have hb := hlow b
          simp only [IpAddr.rank] at h
          omega
      | v6 b => exact congrArg IpAddr.v6 (Subtype.ext (from_be_bytes_inj
          (a.property.trans b.property.symm) (Nat.add_left_cancel h)))

theorem SocketAddr.le_total (a b : SocketAddr) : a.le b = true ∨ b.le a = true := by
  have hport := UInt16.le_total a.port b.port
  simp only [le, Bool.or_eq_true, Bool.and_eq_true, decide_eq_true_eq, beq_iff_eq]
  rcases Nat.lt_trichotomy a.ip.rank b.ip.rank with hlt | heq | hgt
  · exact Or.inl (Or.inl hlt)
  · exact hport.imp (fun h => Or.inr ⟨heq, h⟩) (fun h => Or.inr ⟨heq.symm, h⟩)
  · exact Or.inr (Or.inl hgt)

theorem SocketAddr.le_antisymm {a b : SocketAddr} (hab : a.le b = true) (hba : b.le a = true) :
    a = b := by
  simp only [le, Bool.or_eq_true, Bool.and_eq_true, decide_eq_true_eq, beq_iff_eq] at hab hba
  have hip : a.ip = b.ip := rank_inj (by omega)
  have hport : a.port = b.port := by
    rcases hab with hlt | ⟨-, hle⟩
    · rw [hip] at hlt
      exact absurd hlt (lt_irrefl _)
    · rcases hba with hlt | ⟨-, hge⟩
      · rw [hip] at hlt
        exact absurd hlt (lt_irrefl _)
      · exact UInt16.le_antisymm hle hge
  obtain ⟨aip, aport⟩ := a
  simp only at hip hport
  rw [hip, hport]

/-- The direction does not matter for the key. -/
theorem key_of_comm (a b : SocketAddr) : keyOf a b = keyOf b a := by
  simp only [keyOf]
  by_cases hab : a.le b = true
  · by_cases hba : b.le a = true
    · rw [SocketAddr.le_antisymm hab hba]
    · rw [if_pos hab, if_neg hba]
  · rw [if_neg hab, if_pos ((SocketAddr.le_total a b).resolve_left hab)]

/-- Two pairs of endpoints share a key if they are the same up to the direction. -/
theorem key_of_eq_iff {a b c d : SocketAddr} :
    keyOf a b = keyOf c d ↔ a = c ∧ b = d ∨ a = d ∧ b = c := by
  constructor
  · intro h
    simp only [keyOf] at h
    split at h <;> split at h <;> simp only [Prod.mk.injEq] at h <;> tauto
  · rintro (⟨rfl, rfl⟩ | ⟨rfl, rfl⟩)
    · rfl
    · exact key_of_comm a b

/-! ## Text -/

/-- The octets of an IPv4 address, separated by dots. -/
def ipv4Text (octets : Bytes) : String :=
  ".".intercalate (octets.map fun b => toString b.toNat)

/-- The eight 16-bit groups of an IPv6 address. -/
def ipv6Segments : Bytes → List Nat
  | hi :: lo :: rest => fromBeBytes [hi, lo] :: ipv6Segments rest
  | _ => []

/-- A run of zero groups: where it starts and how long it is. -/
structure ZeroSpan where
  start : Nat
  len : Nat
  deriving DecidableEq

/-- The longest run of zero groups, the first of several: the loop of the source's standard library,
with the index, the longest run and the current one so far. -/
def longestZeros (i : Nat) (longest current : ZeroSpan) : List Nat → ZeroSpan
  | [] => longest
  | segment :: rest =>
      if segment = 0 then
        let current := ⟨if current.len = 0 then i else current.start, current.len + 1⟩
        longestZeros (i + 1) (if current.len > longest.len then current else longest) current rest
      else longestZeros (i + 1) longest ⟨0, 0⟩ rest

/-- Groups in hexadecimal, separated by colons. -/
def segmentsText (segments : List Nat) : String :=
  ":".intercalate (segments.map fun n => String.ofList (Nat.toDigits 16 n))

/-- The text of an IPv6 address: the longest run of zeros is left out, and an address that stands
for one of version 4 ends in its dotted form. -/
def ipv6Text (octets : Bytes) : String :=
  if octets.take 12 = List.replicate 10 0 ++ [0xff, 0xff] then
    "::ffff:" ++ ipv4Text (octets.drop 12)
  else
    let segments := ipv6Segments octets
    let zeros := longestZeros 0 ⟨0, 0⟩ ⟨0, 0⟩ segments
    if zeros.len > 1 then
      segmentsText (segments.take zeros.start) ++ "::" ++
        segmentsText (segments.drop (zeros.start + zeros.len))
    else segmentsText segments

/-- `SocketAddr::to_string`. -/
def SocketAddr.text (a : SocketAddr) : String :=
  match a.ip with
  | .v4 octets => ipv4Text octets.val ++ ":" ++ toString a.port.toNat
  | .v6 octets => "[" ++ ipv6Text octets.val ++ "]:" ++ toString a.port.toNat

end H2Tap
