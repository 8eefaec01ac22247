import H2Tap.Frame

/-!
# Classic BPF

The interpreter of `sock.rs` and the way in which `build_filter` resolves symbolic jump targets.
`runFrom_assemble` says that a resolved program does what the symbolic one does, as long as every
target lies within the 255 instructions after the next one, which is what a jump can express.
-/

namespace H2Tap.Bpf

/-! ## The machine -/

/-- The opcodes that are used: `BPF_LD_H_ABS` and so on. -/
inductive Opcode where
  | ldHAbs
  | ldBAbs
  | ldHInd
  | ldxBMsh
  | jeqK
  | jsetK
  | ja
  | retK
  deriving DecidableEq, Repr

/-- `sock_filter`. -/
structure SockFilter where
  code : Opcode
  jt : UInt8
  jf : UInt8
  k : UInt32
  deriving DecidableEq, Repr

/-- `ld`: the `n` bytes from `off` on, `none` out of bounds. -/
def load (pkt : Bytes) (off n : Nat) : Option UInt32 :=
  if off + n > pkt.length then none else some (fromBeBytes ((pkt.drop off).take n)).toUInt32

/-- The loop of `run` with the registers `a` and `x`, at instruction `pc`: `none` when it panics, at
the end of the program or of the fuel. -/
def runFrom (prog : List SockFilter) (pkt : Bytes) :
    Nat → UInt32 → UInt32 → Nat → Option UInt32
  | 0, _, _, _ => none
  | fuel + 1, a, x, pc =>
      match prog[pc]? with
      | none => none
      | some i =>
          match i.code with
          | .ldHAbs =>
              match load pkt i.k.toNat 2 with
              | some v => runFrom prog pkt fuel v x (pc + 1)
              | none => some 0
          | .ldBAbs =>
              match load pkt i.k.toNat 1 with
              | some v => runFrom prog pkt fuel v x (pc + 1)
              | none => some 0
          | .ldHInd =>
              match load pkt (x + i.k).toNat 2 with
              | some v => runFrom prog pkt fuel v x (pc + 1)
              | none => some 0
          | .ldxBMsh =>
              match load pkt i.k.toNat 1 with
              | some v => runFrom prog pkt fuel a (4 * (v &&& 0x0f)) (pc + 1)
              | none => some 0
          | .jeqK => runFrom prog pkt fuel a x (pc + 1 + (if a = i.k then i.jt else i.jf).toNat)
          | .jsetK =>
              runFrom prog pkt fuel a x (pc + 1 + (if a &&& i.k ≠ 0 then i.jt else i.jf).toNat)
          | .ja => runFrom prog pkt fuel a x (pc + 1 + i.k.toNat)
          | .retK => some i.k

/-- `run`. -/
def run (prog : List SockFilter) (pkt : Bytes) : Option UInt32 := runFrom prog pkt 10000 0 0 0

/-! ## Symbolic programs -/

/-- `T`: where a jump goes. -/
inductive T where
  | next
  | accept
  | drop
  | at (i : Nat)
  deriving DecidableEq, Repr

/-- `Pseudo`: an instruction with symbolic jump targets. -/
structure Pseudo where
  code : Opcode
  k : UInt32
  jt : T
  jf : T
  deriving DecidableEq, Repr

/-- `ins`. -/
def ins (code : Opcode) (k : UInt32) : Pseudo := ⟨code, k, .next, .next⟩

/-- `jmp`. -/
def jmp (code : Opcode) (k : UInt32) (jt jf : T) : Pseudo := ⟨code, k, jt, jf⟩

/-- The instruction that `resolve` jumps to. The verdicts are always the last two instructions of a
program of `length` instructions. -/
def T.target (length here : Nat) : T → Nat
  | .next => here + 1
  | .accept => length - 2
  | .drop => length - 1
  | .at i => i

/-- `resolve`: the offset of the target from the next instruction. -/
def T.resolve (length : Nat) (t : T) (here : Nat) : Nat := t.target length here - here - 1

/-- The instruction with its targets resolved. An unconditional jump has its target in `k`. -/
def Pseudo.assemble (length : Nat) (here : Nat) (p : Pseudo) : SockFilter :=
  if p.code = .ja then ⟨p.code, 0, 0, (p.jt.resolve length here).toUInt32⟩
  else ⟨p.code, (p.jt.resolve length here).toUInt8, (p.jf.resolve length here).toUInt8, p.k⟩

/-- The program with its targets resolved. -/
def assemble (prog : List Pseudo) : List SockFilter := prog.mapIdx (Pseudo.assemble prog.length)

/-- What follows a jump to `t` from an instruction that is followed by `rest`. -/
def T.follow (prog rest : List Pseudo) : T → List Pseudo
  | .next => rest
  | t => prog.drop (t.target prog.length 0)

/-- The meaning of a symbolic program, of which the instructions `rest` are still to come. -/
def runSymbolic (prog : List Pseudo) (pkt : Bytes) :
    Nat → UInt32 → UInt32 → List Pseudo → Option UInt32
  | 0, _, _, _ => none
  | _ + 1, _, _, [] => none
  | fuel + 1, a, x, i :: rest =>
      match i.code with
      | .ldHAbs =>
          match load pkt i.k.toNat 2 with
          | some v => runSymbolic prog pkt fuel v x rest
          | none => some 0
      | .ldBAbs =>
          match load pkt i.k.toNat 1 with
          | some v => runSymbolic prog pkt fuel v x rest
          | none => some 0
      | .ldHInd =>
          match load pkt (x + i.k).toNat 2 with
          | some v => runSymbolic prog pkt fuel v x rest
          | none => some 0
      | .ldxBMsh =>
          match load pkt i.k.toNat 1 with
          | some v => runSymbolic prog pkt fuel a (4 * (v &&& 0x0f)) rest
          | none => some 0
      | .jeqK => runSymbolic prog pkt fuel a x ((if a = i.k then i.jt else i.jf).follow prog rest)
      | .jsetK =>
          runSymbolic prog pkt fuel a x ((if a &&& i.k ≠ 0 then i.jt else i.jf).follow prog rest)
      | .ja => runSymbolic prog pkt fuel a x (i.jt.follow prog rest)
      | .retK => some i.k

/-! ## Resolving keeps the meaning -/

/-- A jump from `here` can express the target. -/
def T.InRange (length here : Nat) (t : T) : Prop :=
  here < t.target length here ∧ t.target length here ≤ here + 256

/-- The instructions `prog`, the first of them at `here`, jump within range. -/
def InRangeFrom (length : Nat) : Nat → List Pseudo → Prop
  | _, [] => True
  | here, i :: rest =>
      i.jt.InRange length here ∧ i.jf.InRange length here ∧ InRangeFrom length (here + 1) rest

theorem in_range_from_append {length here : Nat} {front rest : List Pseudo} :
    InRangeFrom length here (front ++ rest) ↔
      InRangeFrom length here front ∧ InRangeFrom length (here + front.length) rest := by
  induction front generalizing here with
  | nil => simp [InRangeFrom]
  | cons i front ih =>
      rw [List.cons_append, InRangeFrom, InRangeFrom, ih, List.length_cons]
      have hlength : here + 1 + front.length = here + (front.length + 1) := by omega
      rw [hlength]
      tauto

/-- A jump in range reaches its target. -/
theorem T.InRange.reaches {length here : Nat} {t : T} (h : t.InRange length here) :
    here + 1 + (t.resolve length here).toUInt8.toNat = t.target length here ∧
      here + 1 + (t.resolve length here).toUInt32.toNat = t.target length here := by
  obtain ⟨hafter, hnear⟩ := h
  unfold T.resolve
  constructor
  · rw [Nat.toUInt8, UInt8.toNat_ofNat']
    omega
  · rw [Nat.toUInt32, UInt32.toNat_ofNat']
    omega

/-- What follows a target is the program from the target on. -/
theorem T.follow_eq {prog rest : List Pseudo} {here : Nat} {i : Pseudo} (t : T)
    (hrest : prog.drop here = i :: rest) :
    t.follow prog rest = prog.drop (t.target prog.length here) := by
  cases t with
  | next =>
      have hnext : prog.drop (here + 1) = rest := by
        rw [← List.drop_drop, hrest, List.drop_one, List.tail_cons]
      exact hnext.symm
  | accept => rfl
  | drop => rfl
  | «at» i => rfl

variable {prog : List Pseudo}

/-- Every instruction of a program in range jumps within range. -/
theorem in_range_of_getElem? {length here n : Nat} {i : Pseudo} (h : InRangeFrom length here prog)
    (hi : prog[n]? = some i) : i.jt.InRange length (here + n) ∧ i.jf.InRange length (here + n) := by
  induction prog generalizing here n with
  | nil => cases hi
  | cons j prog ih =>
      obtain ⟨hjt, hjf, hrest⟩ := h
      cases n with
      | zero =>
          cases hi
          exact ⟨hjt, hjf⟩
      | succ n =>
          have hn := ih hrest hi
          rwa [show here + 1 + n = here + (n + 1) by omega] at hn

/-- A resolved program does what the symbolic one does. -/
theorem runFrom_assemble (h : InRangeFrom prog.length 0 prog) (pkt : Bytes) (fuel : Nat)
    (a x : UInt32) (pc : Nat) :
    runFrom (assemble prog) pkt fuel a x pc = runSymbolic prog pkt fuel a x (prog.drop pc) := by
  induction fuel generalizing a x pc with
  | zero => rfl
  | succ fuel ih =>
      have hfetch : (assemble prog)[pc]? = prog[pc]?.map (Pseudo.assemble prog.length pc) :=
        List.getElem?_mapIdx
      rw [runFrom, hfetch]
      cases hi : prog[pc]? with
      | none =>
          rw [List.drop_eq_nil_of_le (List.getElem?_eq_none_iff.mp hi)]
          rfl
      | some i =>
          obtain ⟨hlt, rfl⟩ := List.getElem?_eq_some_iff.mp hi
          have hrest := List.drop_eq_getElem_cons hlt
          obtain ⟨hjt, hjf⟩ := in_range_of_getElem? h hi
          rw [Nat.zero_add] at hjt hjf
          have hjump : ∀ {t : T}, t.InRange prog.length pc →
              runFrom (assemble prog) pkt fuel a x
                  (pc + 1 + (t.resolve prog.length pc).toUInt8.toNat) =
                runSymbolic prog pkt fuel a x (t.follow prog (prog.drop (pc + 1))) := by
            intro t ht
            rw [ht.reaches.1, t.follow_eq hrest, ih]
          rw [hrest, runSymbolic, Option.map_some]
          generalize prog[pc] = i at hjt hjf hrest
          obtain ⟨code, k, jt, jf⟩ := i
          cases code with
          | ldHAbs | ldBAbs | ldHInd | ldxBMsh =>
              simp only [Pseudo.assemble, reduceCtorEq, if_false]
              split
              · exact ih _ _ _
              · rfl
          | jeqK =>
              simp only [Pseudo.assemble, reduceCtorEq, if_false]
              split
              · exact hjump hjt
              · exact hjump hjf
          | jsetK =>
              simp only [Pseudo.assemble, reduceCtorEq, if_false]
              split
              · exact hjump hjt
              · exact hjump hjf
          | ja =>
              simp only [Pseudo.assemble, if_true]
              rw [hjt.reaches.2, jt.follow_eq hrest, ih]
          | retK => rfl

/-! ## Rules -/

variable {pkt : Bytes} {rest : List Pseudo} {n : Nat} {a x k v : UInt32} {jt jf : T}

/-- The symbolic program returns `v` within `n` instructions. -/
def Returns (prog : List Pseudo) (pkt : Bytes) (n : Nat) (a x : UInt32) (rest : List Pseudo)
    (v : UInt32) : Prop :=
  ∀ fuel, n ≤ fuel → runSymbolic prog pkt fuel a x rest = some v

theorem Returns.mono {m : Nat} (h : Returns prog pkt n a x rest v) (hm : n ≤ m) :
    Returns prog pkt m a x rest v :=
  fun fuel hfuel => h fuel (le_trans hm hfuel)

/-- One instruction is fetched. -/
theorem returns_of_step (h : ∀ fuel, n ≤ fuel → runSymbolic prog pkt (fuel + 1) a x rest = some v) :
    Returns prog pkt (n + 1) a x rest v := by
  intro fuel hfuel
  obtain ⟨fuel, rfl⟩ := Nat.exists_eq_add_of_le' (Nat.le_of_add_left_le hfuel)
  exact h fuel (Nat.le_of_add_le_add_right hfuel)

theorem returns_ret_k : Returns prog pkt 1 a x (ins .retK k :: rest) k :=
  returns_of_step fun _ _ => rfl

theorem returns_ld_h_abs (hnone : load pkt k.toNat 2 = none → v = 0)
    (hsome : ∀ w, load pkt k.toNat 2 = some w → Returns prog pkt n w x rest v) :
    Returns prog pkt (n + 1) a x (ins .ldHAbs k :: rest) v := by
  refine returns_of_step fun fuel hfuel => ?_
  simp only [runSymbolic, ins]
  cases hload : load pkt k.toNat 2 with
  | none => exact congrArg some (hnone hload).symm
  | some w => exact hsome w hload fuel hfuel

theorem returns_ld_b_abs (hnone : load pkt k.toNat 1 = none → v = 0)
    (hsome : ∀ w, load pkt k.toNat 1 = some w → Returns prog pkt n w x rest v) :
    Returns prog pkt (n + 1) a x (ins .ldBAbs k :: rest) v := by
  refine returns_of_step fun fuel hfuel => ?_
  simp only [runSymbolic, ins]
  cases hload : load pkt k.toNat 1 with
  | none => exact congrArg some (hnone hload).symm
  | some w => exact hsome w hload fuel hfuel

theorem returns_ld_h_ind (hnone : load pkt (x + k).toNat 2 = none → v = 0)
    (hsome : ∀ w, load pkt (x + k).toNat 2 = some w → Returns prog pkt n w x rest v) :
    Returns prog pkt (n + 1) a x (ins .ldHInd k :: rest) v := by
  refine returns_of_step fun fuel hfuel => ?_
  simp only [runSymbolic, ins]
  cases hload : load pkt (x + k).toNat 2 with
  | none => exact congrArg some (hnone hload).symm
  | some w => exact hsome w hload fuel hfuel

theorem returns_ldx_b_msh (hnone : load pkt k.toNat 1 = none → v = 0)
    (hsome : ∀ w, load pkt k.toNat 1 = some w →
      Returns prog pkt n a (4 * (w &&& 0x0f)) rest v) :
    Returns prog pkt (n + 1) a x (ins .ldxBMsh k :: rest) v := by
  refine returns_of_step fun fuel hfuel => ?_
  simp only [runSymbolic, ins]
  cases hload : load pkt k.toNat 1 with
  | none => exact congrArg some (hnone hload).symm
  | some w => exact hsome w hload fuel hfuel

theorem returns_jeq_k (htrue : a = k → Returns prog pkt n a x (jt.follow prog rest) v)
    (hfalse : a ≠ k → Returns prog pkt n a x (jf.follow prog rest) v) :
    Returns prog pkt (n + 1) a x (jmp .jeqK k jt jf :: rest) v := by
  refine returns_of_step fun fuel hfuel => ?_
  change runSymbolic prog pkt fuel a x ((if a = k then jt else jf).follow prog rest) = some v
  by_cases ha : a = k
  · rw [if_pos ha]
    exact htrue ha fuel hfuel
  · rw [if_neg ha]
    exact hfalse ha fuel hfuel

theorem returns_jset_k (htrue : a &&& k ≠ 0 → Returns prog pkt n a x (jt.follow prog rest) v)
    (hfalse : a &&& k = 0 → Returns prog pkt n a x (jf.follow prog rest) v) :
    Returns prog pkt (n + 1) a x (jmp .jsetK k jt jf :: rest) v := by
  refine returns_of_step fun fuel hfuel => ?_
  change runSymbolic prog pkt fuel a x ((if a &&& k ≠ 0 then jt else jf).follow prog rest) = some v
  by_cases ha : a &&& k = 0
  · rw [if_neg (not_not.mpr ha)]
    exact hfalse ha fuel hfuel
  · rw [if_pos ha]
    exact htrue ha fuel hfuel

theorem returns_ja (h : Returns prog pkt n a x (jt.follow prog rest) v) :
    Returns prog pkt (n + 1) a x (jmp .ja k jt jf :: rest) v :=
  returns_of_step fun fuel hfuel => h fuel hfuel

end H2Tap.Bpf
