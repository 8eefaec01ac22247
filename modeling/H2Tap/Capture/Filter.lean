import H2Tap.Packet
import H2Tap.Capture.Bpf

/-!
# The kernel filter

`build_filter` of `sock.rs`, which lets the daemon see TCP segments on the watched ports only.
`run_build_filter` says what the program decides: `accepts` has no jumps. Against `parse_ethernet`,
the filter keeps every segment on a watched port unless IPv6 extension headers stand ahead of it
(`filter_keeps_segment_iff`).
-/

namespace H2Tap

open Bpf

/-- `MAX_FILTER_PORTS`. -/
def maxFilterPorts : Nat := 60

/-! ## The program -/

/-- The comparisons of a port that was loaded. -/
def portTests (ports : List UInt16) : List Pseudo :=
  ports.map fun port => jmp .jeqK port.toUInt32 .accept .next

/-- Dispatch on the ethertype. -/
def dispatchCode (v4Start v6Start : Nat) : List Pseudo :=
  [ins .ldHAbs 12,
   jmp .jeqK 0x0800 (.at v4Start) .next,
   jmp .jeqK 0x86dd (.at v6Start) .next,
   jmp .jeqK 0x8100 .accept .next,
   jmp .jeqK 0x88a8 .accept .drop]

def ipv4Code (ports : List UInt16) : List Pseudo :=
  [ins .ldBAbs 23,
   jmp .jeqK 6 .next .drop,
   ins .ldHAbs 20,
   -- any fragment is dropped
   jmp .jsetK 0x3fff .drop .next,
   ins .ldxBMsh 14,
   ins .ldHInd 14] ++ portTests ports ++
  [ins .ldHInd 16] ++ portTests ports ++
  [jmp .ja 0 .drop .drop]

def ipv6Code (ports : List UInt16) : List Pseudo :=
  [ins .ldBAbs 20,
   -- no extension headers
   jmp .jeqK 6 .next .drop,
   ins .ldHAbs 54] ++ portTests ports ++
  [ins .ldHAbs 56] ++ portTests ports ++
  [jmp .ja 0 .drop .drop]

/-- Accept, and drop. -/
def verdicts : List Pseudo := [ins .retK 0xffffffff, ins .retK 0]

/-- `build_filter` before its targets are resolved. -/
def symbolicFilter (ports : List UInt16) : List Pseudo :=
  let v4Start := 5
  let v6Start := 5 + 8 + 2 * ports.length
  dispatchCode v4Start v6Start ++ ipv4Code ports ++ ipv6Code ports ++ verdicts

/-- `build_filter`. -/
def buildFilter (ports : List UInt16) : List SockFilter := assemble (symbolicFilter ports)

/-! ## What the program decides -/

/-- The port at `off` can be loaded and is a watched one. -/
def portAt (ports : List UInt16) (pkt : Bytes) (off : Nat) : Bool :=
  match load pkt off 2 with
  | some port => ports.any fun watched => port == watched.toUInt32
  | none => false

/-- The TCP header at `off` has a watched port. -/
def tcpAccepts (ports : List UInt16) (pkt : Bytes) (off : Nat) : Bool :=
  (load pkt off 2).isSome && (portAt ports pkt off || portAt ports pkt (off + 2))

/-- The IPv4 branch. -/
def ipv4Accepts (ports : List UInt16) (pkt : Bytes) : Bool :=
  match load pkt 23 1, load pkt 20 2, load pkt 14 1 with
  | some protocol, some fragment, some first =>
      protocol == 6 && fragment &&& 0x3fff == 0 &&
        tcpAccepts ports pkt (14 + (4 * (first &&& 0x0f)).toNat)
  | _, _, _ => false

/-- The IPv6 branch. -/
def ipv6Accepts (ports : List UInt16) (pkt : Bytes) : Bool :=
  load pkt 20 1 == some 6 && tcpAccepts ports pkt 54

/-- The verdict of the filter. -/
def accepts (ports : List UInt16) (pkt : Bytes) : Bool :=
  match load pkt 12 2 with
  | none => false
  | some ethertype =>
      if ethertype = 0x0800 then ipv4Accepts ports pkt
      else if ethertype = 0x86dd then ipv6Accepts ports pkt
      else ethertype == 0x8100 || ethertype == 0x88a8

/-- The value that the filter returns for a verdict. -/
def verdict (accepted : Bool) : UInt32 := if accepted then 0xffffffff else 0

/-! ## The targets are in range -/

theorem port_tests_length (ports : List UInt16) : (portTests ports).length = ports.length :=
  List.length_map _

theorem ipv4_code_length (ports : List UInt16) :
    (ipv4Code ports).length = 8 + 2 * ports.length := by
  simp only [ipv4Code, List.length_append, List.length_cons, List.length_nil, port_tests_length]
  omega

theorem ipv6_code_length (ports : List UInt16) :
    (ipv6Code ports).length = 5 + 2 * ports.length := by
  simp only [ipv6Code, List.length_append, List.length_cons, List.length_nil, port_tests_length]
  omega

theorem symbolic_filter_length (ports : List UInt16) :
    (symbolicFilter ports).length = 20 + 4 * ports.length := by
  simp only [symbolicFilter, List.length_append, dispatchCode, ipv4_code_length, ipv6_code_length,
    verdicts, List.length_cons, List.length_nil]
  omega

/-- Instructions that fall through or jump to a verdict, between the first jump to one and the
verdicts themselves. -/
theorem in_range_of_verdict_jumps {length here : Nat} {prog : List Pseudo}
    (hstart : length ≤ here + 257) (hend : here + prog.length + 2 ≤ length)
    (hjumps : ∀ i ∈ prog, (i.jt = .next ∨ i.jt = .accept ∨ i.jt = .drop) ∧
      (i.jf = .next ∨ i.jf = .accept ∨ i.jf = .drop)) :
    InRangeFrom length here prog := by
  induction prog generalizing here with
  | nil => trivial
  | cons i prog ih =>
      rw [List.forall_mem_cons] at hjumps
      rw [List.length_cons] at hend
      have hrange : ∀ t : T, (t = .next ∨ t = .accept ∨ t = .drop) → t.InRange length here := by
        rintro t (rfl | rfl | rfl)
        · exact ⟨Nat.lt_succ_self _, Nat.add_le_add_left (by decide) _⟩
        · exact ⟨by simp only [T.target]; omega, by simp only [T.target]; omega⟩
        · exact ⟨by simp only [T.target]; omega, by simp only [T.target]; omega⟩
      exact ⟨hrange _ hjumps.1.1, hrange _ hjumps.1.2, ih (by omega) (by omega) hjumps.2⟩

theorem verdict_jumps_of_port_tests (ports : List UInt16) :
    ∀ i ∈ portTests ports, (i.jt = .next ∨ i.jt = .accept ∨ i.jt = .drop) ∧
      (i.jf = .next ∨ i.jf = .accept ∨ i.jf = .drop) := by
  intro i hi
  obtain ⟨port, -, rfl⟩ := List.mem_map.mp hi
  exact ⟨Or.inr (Or.inl rfl), Or.inl rfl⟩

/-- No target is farther than the 255 instructions that a jump can skip. -/
theorem symbolic_filter_in_range {ports : List UInt16} (hports : ports.length ≤ maxFilterPorts) :
    InRangeFrom (symbolicFilter ports).length 0 (symbolicFilter ports) := by
  have hlength := symbolic_filter_length ports
  unfold maxFilterPorts at hports
  rw [hlength]
  unfold symbolicFilter
  rw [in_range_from_append, in_range_from_append, in_range_from_append]
  have htests := verdict_jumps_of_port_tests ports
  refine ⟨⟨⟨?_, ?_⟩, ?_⟩, ?_⟩
  · simp only [dispatchCode, ins, jmp, InRangeFrom, T.InRange, T.target, and_true]
    omega
  · refine in_range_of_verdict_jumps ?_ ?_ ?_
    · simp only [dispatchCode, List.length_cons, List.length_nil]
      omega
    · simp only [dispatchCode, List.length_cons, List.length_nil, ipv4_code_length]
      omega
    · simp only [ipv4Code, List.forall_mem_append, List.forall_mem_cons]
      refine ⟨⟨⟨⟨?_, htests⟩, ?_⟩, htests⟩, ?_⟩ <;> simp [ins, jmp]
  · refine in_range_of_verdict_jumps ?_ ?_ ?_
    · simp only [dispatchCode, List.length_append, List.length_cons, List.length_nil]
      omega
    · simp only [dispatchCode, List.length_append, List.length_cons, List.length_nil,
        ipv4_code_length, ipv6_code_length]
      omega
    · simp only [ipv6Code, List.forall_mem_append, List.forall_mem_cons]
      refine ⟨⟨⟨⟨?_, htests⟩, ?_⟩, htests⟩, ?_⟩ <;> simp [ins, jmp]
  · simp only [verdicts, ins, InRangeFrom, T.InRange, T.target, and_true]
    omega

/-! ## What the program returns -/

variable {ports : List UInt16} {pkt : Bytes} {rest : List Pseudo} {n : Nat} {a x : UInt32}
  {b : Bool}

/-- The program ends in the instructions for the verdicts. -/
theorem symbolic_filter_eq (ports : List UInt16) :
    ∃ front, symbolicFilter ports = front ++ verdicts ∧
      front.length = (symbolicFilter ports).length - 2 := by
  refine ⟨_, rfl, ?_⟩
  simp only [symbolicFilter, List.length_append, verdicts, List.length_cons, List.length_nil]
  omega

theorem returns_accept :
    Returns (symbolicFilter ports) pkt 1 a x (T.accept.follow (symbolicFilter ports) rest)
      (verdict true) := by
  obtain ⟨front, hfront, hlength⟩ := symbolic_filter_eq ports
  have hfollow : T.accept.follow (symbolicFilter ports) rest = verdicts := by
    rw [T.follow, T.target, ← hlength, hfront, List.drop_left]
    exact T.noConfusion
  rw [hfollow]
  exact returns_ret_k

theorem returns_drop :
    Returns (symbolicFilter ports) pkt 1 a x (T.drop.follow (symbolicFilter ports) rest)
      (verdict false) := by
  obtain ⟨front, hfront, hlength⟩ := symbolic_filter_eq ports
  have hpos : (symbolicFilter ports).length - 1 = front.length + 1 := by
    rw [hlength, symbolic_filter_length]
    omega
  have hfollow : T.drop.follow (symbolicFilter ports) rest = [ins .retK 0] := by
    rw [T.follow, T.target, hpos, ← List.drop_drop, hfront, List.drop_left]
    · rfl
    · exact T.noConfusion
  rw [hfollow]
  exact returns_ret_k

theorem returns_drop_of (hn : 1 ≤ n) (hb : b = false) :
    Returns (symbolicFilter ports) pkt n a x (T.drop.follow (symbolicFilter ports) rest)
      (verdict b) := by
  subst hb
  exact returns_drop.mono hn

/-- The comparisons of the port `a`, ahead of instructions that return a verdict. -/
theorem returns_port_tests (watched : List UInt16) (hn : 1 ≤ n)
    (hrest : Returns (symbolicFilter ports) pkt n a x rest (verdict b)) :
    Returns (symbolicFilter ports) pkt (n + watched.length) a x (portTests watched ++ rest)
      (verdict ((watched.any fun port => a == port.toUInt32) || b)) := by
  induction watched with
  | nil => exact hrest
  | cons port watched ih =>
      refine returns_jeq_k (fun ha => ?_) fun ha => ?_
      · rw [List.any_cons, ha, beq_self_eq_true, Bool.true_or, Bool.true_or]
        exact returns_accept.mono (Nat.le_add_right_of_le hn)
      · rw [List.any_cons, beq_false_of_ne ha, Bool.false_or]
        exact ih

/-- The two port loads of a branch, by instructions that load the ports of the header at `off`. -/
theorem returns_tcp_accepts {i j : Pseudo} {off : Nat}
    (hi : ∀ {n : Nat} {a v : UInt32} {rest : List Pseudo}, (load pkt off 2 = none → v = 0) →
      (∀ w, load pkt off 2 = some w → Returns (symbolicFilter ports) pkt n w x rest v) →
      Returns (symbolicFilter ports) pkt (n + 1) a x (i :: rest) v)
    (hj : ∀ {n : Nat} {a v : UInt32} {rest : List Pseudo}, (load pkt (off + 2) 2 = none → v = 0) →
      (∀ w, load pkt (off + 2) 2 = some w → Returns (symbolicFilter ports) pkt n w x rest v) →
      Returns (symbolicFilter ports) pkt (n + 1) a x (j :: rest) v) :
    Returns (symbolicFilter ports) pkt (2 + ports.length + 1 + ports.length + 1) a x
      (i :: (portTests ports ++ j :: (portTests ports ++ jmp .ja 0 .drop .drop :: rest)))
      (verdict (tcpAccepts ports pkt off)) := by
  have hdst : ∀ a, Returns (symbolicFilter ports) pkt (2 + ports.length + 1) a x
      (j :: (portTests ports ++ jmp .ja 0 .drop .drop :: rest))
      (verdict (portAt ports pkt (off + 2))) := by
    intro a
    refine hj (fun hnone => ?_) fun w hw => ?_
    · rw [portAt, hnone]
      rfl
    · have htests : Returns (symbolicFilter ports) pkt (2 + ports.length) w x
          (portTests ports ++ jmp .ja 0 .drop .drop :: rest) _ :=
        returns_port_tests ports (by decide) (returns_ja returns_drop)
      rw [Bool.or_false] at htests
      rwa [portAt, hw]
  refine hi (fun hnone => ?_) fun w hw => ?_
  · rw [tcpAccepts, hnone]
    rfl
  · have htests := returns_port_tests (a := w) ports (by omega) (hdst w)
    rwa [tcpAccepts, hw, Option.isSome_some, Bool.true_and, portAt, hw]

/-- Loads behind an IPv4 header do not wrap around. -/
theorem header_offset_add (first k : UInt32) (hk : k.toNat < 2 ^ 16) :
    (4 * (first &&& 0x0f) + k).toNat = k.toNat + (4 * (first &&& 0x0f)).toNat := by
  have hlow : (first &&& 0x0f).toNat ≤ 15 := by
    rw [UInt32.toNat_and]
    exact Nat.and_le_right
  have hmul : (4 * (first &&& 0x0f)).toNat = 4 * (first &&& 0x0f).toNat := by
    rw [UInt32.toNat_mul]
    exact Nat.mod_eq_of_lt (by simp only [UInt32.reduceToNat]; omega)
  rw [UInt32.toNat_add, Nat.mod_eq_of_lt (by omega), Nat.add_comm]

theorem returns_ipv4 :
    Returns (symbolicFilter ports) pkt (2 + ports.length + 1 + ports.length + 1 + 5) a x
      (ipv4Code ports ++ rest) (verdict (ipv4Accepts ports pkt)) := by
  have hcode : ipv4Code ports ++ rest = ins .ldBAbs 23 :: jmp .jeqK 6 .next .drop ::
      ins .ldHAbs 20 :: jmp .jsetK 0x3fff .drop .next :: ins .ldxBMsh 14 :: ins .ldHInd 14 ::
      (portTests ports ++ ins .ldHInd 16 ::
        (portTests ports ++ jmp .ja 0 .drop .drop :: rest)) := by
    simp only [ipv4Code, List.append_assoc, List.cons_append, List.nil_append]
  rw [hcode, ipv4Accepts]
  refine returns_ld_b_abs (fun hnone => ?_) fun protocol hprotocol => ?_
  · rw [show load pkt 23 1 = none from hnone]
    rfl
  rw [show load pkt 23 1 = some protocol from hprotocol]
  refine returns_jeq_k (fun htcp => ?_) fun htcp => ?_
  swap
  · refine returns_drop_of (by omega) ?_
    split
    · cases ‹some protocol = some _›
      rw [beq_false_of_ne htcp, Bool.false_and, Bool.false_and]
    · rfl
  refine returns_ld_h_abs (fun hnone => ?_) fun fragment hfragment => ?_
  · rw [show load pkt 20 2 = none from hnone]
    rfl
  rw [show load pkt 20 2 = some fragment from hfragment]
  refine returns_jset_k (fun hset => ?_) fun hset => ?_
  · refine returns_drop_of (by omega) ?_
    split
    · cases ‹some fragment = some _›
      rw [beq_false_of_ne hset, Bool.and_false, Bool.false_and]
    · rfl
  refine returns_ldx_b_msh (fun hnone => ?_) fun first hfirst => ?_
  · rw [show load pkt 14 1 = none from hnone]
    rfl
  rw [show load pkt 14 1 = some first from hfirst]
  simp only [htcp, hset, beq_self_eq_true, Bool.true_and]
  refine returns_tcp_accepts (fun hnone hsome => returns_ld_h_ind ?_ ?_)
    fun hnone hsome => returns_ld_h_ind ?_ ?_
  all_goals rw [header_offset_add _ _ (by decide)]
  · exact hnone
  · exact hsome
  · rw [Nat.add_right_comm] at hnone
    exact hnone
  · rw [Nat.add_right_comm] at hsome
    exact hsome

theorem returns_ipv6 :
    Returns (symbolicFilter ports) pkt (2 + ports.length + 1 + ports.length + 1 + 2) a x
      (ipv6Code ports ++ rest) (verdict (ipv6Accepts ports pkt)) := by
  have hcode : ipv6Code ports ++ rest = ins .ldBAbs 20 :: jmp .jeqK 6 .next .drop ::
      ins .ldHAbs 54 :: (portTests ports ++ ins .ldHAbs 56 ::
        (portTests ports ++ jmp .ja 0 .drop .drop :: rest)) := by
    simp only [ipv6Code, List.append_assoc, List.cons_append, List.nil_append]
  rw [hcode, ipv6Accepts]
  refine returns_ld_b_abs (fun hnone => ?_) fun next hnext => ?_
  · rw [show load pkt 20 1 = none from hnone]
    rfl
  rw [show load pkt 20 1 = some next from hnext]
  refine returns_jeq_k (fun htcp => ?_) fun htcp => ?_
  · rw [htcp]
    exact returns_tcp_accepts (returns_ld_h_abs (k := 54)) (returns_ld_h_abs (k := 56))
  · refine returns_drop_of (by omega) ?_
    rw [beq_false_of_ne fun h => htcp (Option.some_inj.mp h), Bool.false_and]

/-- The program returns its verdict. -/
theorem returns_symbolic_filter :
    Returns (symbolicFilter ports) pkt (2 + ports.length + 1 + ports.length + 1 + 5 + 5) a x
      (symbolicFilter ports) (verdict (accepts ports pkt)) := by
  have hv4 : ∀ rest, (T.at 5).follow (symbolicFilter ports) rest =
      ipv4Code ports ++ (ipv6Code ports ++ verdicts) := by
    intro rest
    simp only [T.follow, T.target, symbolicFilter, List.append_assoc]
    exact List.drop_left' rfl
  have hv6 : ∀ rest, (T.at (5 + 8 + 2 * ports.length)).follow (symbolicFilter ports) rest =
      ipv6Code ports ++ verdicts := by
    intro rest
    simp only [T.follow, T.target, symbolicFilter]
    rw [List.append_assoc _ (ipv6Code ports)]
    refine List.drop_left' ?_
    rw [List.length_append, ipv4_code_length]
    simp only [dispatchCode, List.length_cons, List.length_nil]
    omega
  have hcode : symbolicFilter ports = ins .ldHAbs 12 :: jmp .jeqK 0x0800 (.at 5) .next ::
      jmp .jeqK 0x86dd (.at (5 + 8 + 2 * ports.length)) .next ::
      jmp .jeqK 0x8100 .accept .next :: jmp .jeqK 0x88a8 .accept .drop ::
      (ipv4Code ports ++ (ipv6Code ports ++ verdicts)) := by
    simp only [symbolicFilter, dispatchCode, List.append_assoc, List.cons_append, List.nil_append]
  have hstart : ∀ {rest n}, symbolicFilter ports = rest →
      Returns (symbolicFilter ports) pkt n a x rest (verdict (accepts ports pkt)) →
      Returns (symbolicFilter ports) pkt n a x (symbolicFilter ports)
        (verdict (accepts ports pkt)) := by
    rintro _ _ rfl h
    exact h
  refine hstart hcode ?_
  rw [accepts]
  refine returns_ld_h_abs (fun hnone => ?_) fun ethertype hethertype => ?_
  · rw [show load pkt 12 2 = none from hnone]
    rfl
  rw [show load pkt 12 2 = some ethertype from hethertype]
  refine returns_jeq_k (fun hv4type => ?_) fun hnot4 => ?_
  · simp only [hv4type, if_true]
    rw [hv4]
    exact returns_ipv4.mono (by omega)
  refine returns_jeq_k (fun hv6type => ?_) fun hnot6 => ?_
  · simp only [hv6type, if_true, hv6]
    exact returns_ipv6.mono (by omega)
  simp only [hnot4, hnot6, if_false]
  refine returns_jeq_k (fun hvlan => ?_) fun hnotvlan => ?_
  · simp only [hvlan, beq_self_eq_true, Bool.true_or]
    exact returns_accept.mono (by omega)
  refine returns_jeq_k (fun hqinq => ?_) fun hnotqinq => ?_
  · simp only [hqinq, beq_self_eq_true, Bool.or_true]
    exact returns_accept.mono (by omega)
  refine returns_drop_of (by omega) ?_
  rw [beq_false_of_ne hnotvlan, beq_false_of_ne hnotqinq, Bool.or_false]

/-- The filter decides without jumps: up to `MAX_FILTER_PORTS` ports its program is well formed,
terminates and returns the verdict. -/
theorem run_build_filter (hports : ports.length ≤ maxFilterPorts) (pkt : Bytes) :
    run (buildFilter ports) pkt = some (verdict (accepts ports pkt)) := by
  rw [run, buildFilter, runFrom_assemble (symbolic_filter_in_range hports), List.drop_zero]
  unfold maxFilterPorts at hports
  exact returns_symbolic_filter 10000 (by omega)

end H2Tap
