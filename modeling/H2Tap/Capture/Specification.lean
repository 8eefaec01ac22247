import H2Tap.Capture.Conservative
import H2Tap.Packet.Layout

/-!
# The specification of the kernel filter

What `build_filter` computes, in terms of the bytes of a frame alone: `Selects` has no loads, no
registers and no jumps. `build_filter_spec` says that the program accepts the selected frames and
drops all others, and that none of its jumps is too long for the byte that holds it.
-/

namespace H2Tap

open Bpf

/-! ## The frames that are selected -/

/-- One of the two words from `off` on is a watched port. The second one is only looked at when the
first one is there and is not watched. -/
def HasPort (ports : List UInt16) (frame : Bytes) (off : Nat) : Prop :=
  ∃ src, wordAt frame off = some src ∧
    ((∃ port ∈ ports, src = port.toNat) ∨
      ∃ port ∈ ports, wordAt frame (off + 2) = some port.toNat)

/-- The IPv4 packets that are selected: TCP, not a fragment, with a watched port behind the IP
header and its options. -/
def SelectsIpv4 (ports : List UInt16) (frame : Bytes) : Prop :=
  frame[23]? = some 6 ∧
    (∃ fragment, wordAt frame 20 = some fragment ∧ fragment &&& 0x3fff = 0) ∧
    ∃ first, frame[14]? = some first ∧ HasPort ports frame (14 + 4 * (first.toNat &&& 15))

/-- The IPv6 packets that are selected: TCP right behind the fixed header, with a watched port. -/
def SelectsIpv6 (ports : List UInt16) (frame : Bytes) : Prop :=
  frame[20]? = some 6 ∧ HasPort ports frame 54

/-- The frames that are selected. Tagged ones all are. -/
def Selects (ports : List UInt16) (frame : Bytes) : Prop :=
  ∃ ethertype, wordAt frame 12 = some ethertype ∧
    (ethertype = 0x8100 ∨ ethertype = 0x88a8 ∨
      (ethertype = 0x0800 ∧ SelectsIpv4 ports frame) ∨
      (ethertype = 0x86dd ∧ SelectsIpv6 ports frame))

/-! ## Loads -/

variable {ports : List UInt16} {frame : Bytes} {off word : Nat}

/-- A load of one byte. -/
theorem load_byte (frame : Bytes) (off : Nat) :
    load frame off 1 = frame[off]?.map (·.toUInt32) := by
  by_cases hoff : off < frame.length
  · rw [load_one hoff, List.getElem?_eq_getElem hoff, Option.map_some]
  · rw [List.getElem?_eq_none (by omega), load, if_pos (by omega), Option.map_none]

theorem load_byte_eq_iff (byte : UInt8) :
    load frame off 1 = some byte.toUInt32 ↔ frame[off]? = some byte := by
  rw [load_byte, Option.map_eq_some_iff]
  constructor
  · rintro ⟨found, hfound, hbyte⟩
    rwa [← UInt8.toUInt32_inj.mp hbyte]
  · exact fun hbyte => ⟨byte, hbyte, rfl⟩

/-- A load of two bytes. -/
theorem load_word (frame : Bytes) (off : Nat) :
    load frame off 2 = (wordAt frame off).map Nat.toUInt32 := by
  unfold wordAt
  by_cases hoff : off + 1 < frame.length
  · rw [load, if_neg (by omega), List.getElem?_eq_getElem (by omega), List.getElem?_eq_getElem hoff,
      Option.map_some, List.drop_eq_getElem_cons (by omega), List.drop_eq_getElem_cons hoff]
    simp only [List.take_succ_cons, List.take_zero, fromBeBytes, List.foldl_cons, List.foldl_nil]
    have hvalue : (0 * 256 + frame[off].toNat) * 256 + frame[off + 1].toNat =
        256 * frame[off].toNat + frame[off + 1].toNat := by omega
    rw [hvalue]
  · rw [load, if_pos (by omega), List.getElem?_eq_none (by omega : frame.length ≤ off + 1)]
    cases frame[off]? <;> rfl

theorem word_at_lt (h : wordAt frame off = some word) : word < 2 ^ 16 := by
  unfold wordAt at h
  split at h
  · rename_i hi lo _ _
    have hhi := hi.toNat_lt
    have hlo := lo.toNat_lt
    cases h
    omega
  · cases h

/-- A word keeps its value in a register. -/
theorem word_to_nat (h : wordAt frame off = some word) : word.toUInt32.toNat = word := by
  have hlt := word_at_lt h
  rw [Nat.toUInt32, UInt32.toNat_ofNat']
  omega

/-- Comparing a register with a constant compares the words. -/
theorem word_eq_iff (h : wordAt frame off = some word) (k : UInt32) :
    word.toUInt32 = k ↔ word = k.toNat := by
  rw [← UInt32.toNat_inj, word_to_nat h]

/-! ## The program decides the specification -/

theorem port_at_iff :
    portAt ports frame off = true ↔ ∃ port ∈ ports, wordAt frame off = some port.toNat := by
  rw [portAt, load_word]
  cases hword : wordAt frame off with
  | none => simp
  | some word =>
      simp only [Option.map_some, List.any_eq_true, beq_iff_eq, word_eq_iff hword,
        UInt16.toNat_toUInt32, Option.some.injEq]

theorem tcp_accepts_iff : tcpAccepts ports frame off = true ↔ HasPort ports frame off := by
  rw [tcpAccepts, Bool.and_eq_true, Bool.or_eq_true, port_at_iff, port_at_iff, HasPort, load_word,
    Option.isSome_map]
  cases hword : wordAt frame off with
  | none => simp
  | some src =>
      simp only [Option.isSome_some, true_and, Option.some.injEq]
      rw [exists_eq_left']

theorem ipv4_accepts_iff : ipv4Accepts ports frame = true ↔ SelectsIpv4 ports frame := by
  have hprotocol : load frame 23 1 = some 6 ↔ frame[23]? = some 6 := load_byte_eq_iff 6
  rw [SelectsIpv4, ← hprotocol, ipv4Accepts, load_word frame 20, load_byte frame 14]
  cases hload : load frame 23 1 with
  | none => simp
  | some protocol =>
      cases hfragment : wordAt frame 20 with
      | none => simp
      | some fragment =>
          have hmask : fragment.toUInt32 &&& 0x3fff = 0 ↔ fragment &&& 0x3fff = 0 := by
            rw [← UInt32.toNat_inj, UInt32.toNat_and, word_to_nat hfragment]
            rfl
          cases hfirst : frame[14]? with
          | none => simp
          | some first =>
              have hlen : (4 * (first.toUInt32 &&& 0x0f)).toNat = 4 * (first.toNat &&& 15) := by
                rw [header_len_eq, UInt8.toNat_and, Nat.mul_comm]
                rfl
              simp only [Option.map_some, Bool.and_eq_true, beq_iff_eq, hmask, hlen,
                tcp_accepts_iff, Option.some.injEq, exists_eq_left', and_assoc]

theorem ipv6_accepts_iff : ipv6Accepts ports frame = true ↔ SelectsIpv6 ports frame := by
  have hnext : load frame 20 1 = some 6 ↔ frame[20]? = some 6 := load_byte_eq_iff 6
  rw [ipv6Accepts, Bool.and_eq_true, beq_iff_eq, hnext, tcp_accepts_iff, SelectsIpv6]

/-- The verdict of the program is the specification. -/
theorem accepts_iff_selects : accepts ports frame = true ↔ Selects ports frame := by
  rw [accepts, Selects, load_word]
  cases hword : wordAt frame 12 with
  | none => simp
  | some ethertype =>
      simp only [Option.map_some, word_eq_iff hword, Option.some.injEq, exists_eq_left']
      -- one ethertype at a time: the branches of the program exclude each other
      by_cases hv4 : ethertype = 0x0800
      · subst hv4
        simp [ipv4_accepts_iff]
      by_cases hv6 : ethertype = 0x86dd
      · subst hv6
        simp [ipv6_accepts_iff]
      · have hv4' : ethertype ≠ (0x0800 : UInt32).toNat := hv4
        have hv6' : ethertype ≠ (0x86dd : UInt32).toNat := hv6
        rw [if_neg hv4', if_neg hv6', Bool.or_eq_true, beq_iff_eq, beq_iff_eq, word_eq_iff hword,
          word_eq_iff hword]
        simp [hv4, hv6]

/-! ## Jump offsets -/

/-- A jump from instruction `here` goes forward, and its offset is not cut off by `as u8`. -/
def FitsByte (length here : Nat) (t : T) : Prop :=
  here < t.target length here ∧ t.resolve length here ≤ 255 ∧
    (t.resolve length here).toUInt8.toNat = t.resolve length here

theorem fits_byte_of_in_range {length here : Nat} {t : T} (h : t.InRange length here) :
    FitsByte length here t := by
  have hreach := h.reaches.1
  obtain ⟨hafter, hnear⟩ := h
  have hresolve : t.resolve length here = t.target length here - here - 1 := rfl
  exact ⟨hafter, by omega, by omega⟩

/-- The program of `build_filter` computes its specification for up to `MAX_FILTER_PORTS` ports and
every frame: it ends at a verdict, and that is acceptance for the selected frames only. Every
target, of a conditional or an unconditional jump, is resolved to an offset of one byte. -/
theorem build_filter_spec (hports : ports.length ≤ maxFilterPorts) :
    (∀ frame, (Selects ports frame → run (buildFilter ports) frame = some 0xffffffff) ∧
      (¬Selects ports frame → run (buildFilter ports) frame = some 0)) ∧
    ∀ here i, (symbolicFilter ports)[here]? = some i →
      FitsByte (symbolicFilter ports).length here i.jt ∧
        FitsByte (symbolicFilter ports).length here i.jf := by
  refine ⟨fun frame => ?_, fun here i hi => ?_⟩
  · rw [run_build_filter hports, ← accepts_iff_selects]
    cases accepts ports frame <;> simp [verdict]
  · obtain ⟨hjt, hjf⟩ := in_range_of_getElem? (symbolic_filter_in_range hports) hi
    rw [Nat.zero_add] at hjt hjf
    exact ⟨fits_byte_of_in_range hjt, fits_byte_of_in_range hjf⟩

/-- A filter for the largest number of ports. -/
theorem build_filter_spec_sixty :
    (∀ frame, (Selects (List.replicate 60 80) frame →
        run (buildFilter (List.replicate 60 80)) frame = some 0xffffffff) ∧
      (¬Selects (List.replicate 60 80) frame →
        run (buildFilter (List.replicate 60 80)) frame = some 0)) ∧
    ∀ here i, (symbolicFilter (List.replicate 60 80))[here]? = some i →
      FitsByte (symbolicFilter (List.replicate 60 80)).length here i.jt ∧
        FitsByte (symbolicFilter (List.replicate 60 80)).length here i.jf :=
  build_filter_spec (by decide)

end H2Tap
