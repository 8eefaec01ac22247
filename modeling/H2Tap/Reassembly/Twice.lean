import H2Tap.Reassembly.Release

/-!
# A segment that arrives twice

`reassembly.rs`, any segments in any order. A segment that was pushed is had from then on: it is
held, or all of it lies before the next byte (`Had`). So a second copy is dropped, or it is held
beside the first one, and goes with it when that is released. Until then the two reassemblers differ
in what they hold, and in nothing else (`Twin`).
-/

namespace H2Tap.Reassembler

/-! ## Places -/

/-- The stream offset of a sequence number, by its distance from the next byte. -/
def placeOf (r : Reassembler) (seq : Seq) : Int := r.deliveredOff + seqDelta seq r.nextSeq

/-- A segment whose place is less than half of the number space away, as long as the held ones are
released. -/
structure Near (p : Int) (segment : Seq × Bytes) (r : Reassembler) : Prop where
  balanced : r.Balanced
  place : segment.1 = r.baseSeq + BitVec.ofInt 32 p
  high : p < r.deliveredOff + 2 ^ 31
  low : r.deliveredOff + r.heldBytes ≤ p + 2 ^ 31

variable {p : Int} {segment other : Seq × Bytes} {r : Reassembler}

/-- The distance of a place from the next byte. -/
theorem seq_delta_place (hnext : r.nextSeq = r.seqAt r.deliveredOff) {seq : Seq}
    (hplace : seq = r.baseSeq + BitVec.ofInt 32 p) (hhigh : p < r.deliveredOff + 2 ^ 31)
    (hlow : r.deliveredOff ≤ p + 2 ^ 31) : seqDelta seq r.nextSeq = p - r.deliveredOff := by
  have hsub : seq - r.nextSeq = BitVec.ofInt 32 (p - r.deliveredOff) := by
    have hsum : BitVec.ofInt 32 p = BitVec.ofInt 32 (p - r.deliveredOff) +
        BitVec.ofNat 32 r.deliveredOff := by
      rw [← BitVec.ofInt_natCast, ← BitVec.ofInt_add, Int.sub_add_cancel]
    rw [hplace, hnext, seqAt, hsum]
    generalize BitVec.ofInt 32 (p - r.deliveredOff) = x
    generalize BitVec.ofNat 32 r.deliveredOff = y
    bv_omega
  rw [seqDelta, hsub, BitVec.toInt_ofInt_eq_self (by decide) (by omega) (by omega)]

/-- A sequence number by its place. -/
theorem place_of_spec (hnext : r.nextSeq = r.seqAt r.deliveredOff) (seq : Seq) :
    seq = r.baseSeq + BitVec.ofInt 32 (r.placeOf seq) := by
  have hdistance : BitVec.ofInt 32 (seqDelta seq r.nextSeq) = seq - r.nextSeq :=
    BitVec.ofInt_toInt
  rw [placeOf, BitVec.ofInt_add, BitVec.ofInt_natCast, hdistance, hnext, seqAt]
  generalize BitVec.ofNat 32 r.deliveredOff = y
  bv_omega

theorem Near.delta (h : r.Near p segment) : seqDelta segment.1 r.nextSeq = p - r.deliveredOff := by
  have hlow := h.low
  exact seq_delta_place h.balanced.nextSeq h.place h.high (by omega)

/-- Releasing a held segment brings a place no nearer than what is left can. If it is the segment at
that place, all of it is delivered. -/
theorem Near.release (h : r.Near p segment) (hfind : r.ooo.find? r.due = some other) :
    ((r.release other).appendTail other).Near p segment ∧
      r.deliveredOff ≤ ((r.release other).appendTail other).deliveredOff ∧
      (other = segment →
        p + segment.2.length ≤ ((r.release other).appendTail other).deliveredOff) := by
  have hheld := held_bytes_release hfind
  have hlow := h.low
  have hhigh := h.high
  have hoverlap : (r.release other).overlap other.1 = r.overlap other.1 := rfl
  -- the tail of the released segment, if there is one, is what is delivered
  have htail : ((r.release other).appendTail other).baseSeq = r.baseSeq ∧
      ((r.release other).appendTail other).heldBytes = (r.release other).heldBytes ∧
      ((r.release other).appendTail other).deliveredOff =
        r.deliveredOff + (other.2.length - r.overlap other.1) := by
    unfold appendTail
    rw [hoverlap]
    split
    · refine ⟨rfl, rfl, ?_⟩
      show r.deliveredOff + (other.2.drop (r.overlap other.1)).length = _
      rw [List.length_drop]
    · exact ⟨rfl, rfl, by show r.deliveredOff = _; omega⟩
  obtain ⟨hbase, hbytes, hdelivered⟩ := htail
  refine ⟨⟨h.balanced.release hfind, by rw [hbase]; exact h.place, by omega, by omega⟩,
    by omega, ?_⟩
  rintro rfl
  have hdue := List.find?_some hfind
  rw [due, h.delta, decide_eq_true_eq] at hdue
  have hbehind : r.overlap other.1 = (-(p - r.deliveredOff)).toNat := by rw [overlap, h.delta]
  omega

/-! ## What was pushed is had -/

/-- Draining releases what is held, or keeps it. -/
theorem held_drain_ooo (h : r.Near p segment) (hmem : segment ∈ r.ooo) :
    segment ∈ r.drainOoo.ooo ∧ r.drainOoo.Near p segment ∨
      p + segment.2.length ≤ r.drainOoo.deliveredOff := by
  induction r using drainOoo.induct with
  | case1 r other hfind ih =>
      rw [drain_ooo_of_due hfind]
      obtain ⟨hnear, -, hdelivered⟩ := h.release hfind
      by_cases hother : other = segment
      · have hall := hdelivered hother
        have hmore := (delivered_drain_ooo ((r.release other).appendTail other)).1
        exact Or.inr (by omega)
      · have hooo : ((r.release other).appendTail other).ooo = r.ooo.eraseP r.due := by
          unfold appendTail
          split <;> rfl
        refine ih hnear ?_
        obtain ⟨before, after, hsplit, hkept⟩ := exists_due hfind
        rw [hooo]
        show segment ∈ (r.release other).ooo
        rw [hkept, List.mem_append]
        rw [hsplit, List.mem_append, List.mem_cons] at hmem
        exact hmem.imp id fun hrest => hrest.resolve_left fun heq => hother heq.symm
  | case2 r hfind hempty =>
      rw [List.isEmpty_iff.mp hempty] at hmem
      cases hmem
  | case3 r hfind hempty =>
      rw [drain_ooo_of_none hfind, if_neg hempty]
      exact Or.inl ⟨hmem, h⟩

/-- A segment that was pushed is held, or all of it lies before the next byte. -/
structure Had (p : Int) (segment : Seq × Bytes) (r : Reassembler) : Prop where
  accounted : r.Accounted
  initialized : r.initialized = true
  place : segment.1 = r.baseSeq + BitVec.ofInt 32 p
  had : p + segment.2.length ≤ r.deliveredOff ∨
    segment ∈ r.ooo ∧ r.deliveredOff < p ∧ p < r.deliveredOff + 2 ^ 31

/-- What was had stays had while held segments are released. -/
theorem had_drain_ooo (hbalanced : r.Balanced) (hinit : r.initialized = true)
    (hplace : segment.1 = r.baseSeq + BitVec.ofInt 32 p)
    (h : p + segment.2.length ≤ r.deliveredOff ∨ segment ∈ r.ooo ∧ r.Near p segment) :
    r.drainOoo.Had p segment := by
  have hdrained := drained_drain_ooo hbalanced
  refine ⟨hdrained.accounted hinit, hdrained.initialized.trans hinit,
    by rw [hdrained.baseSeq]; exact hplace, ?_⟩
  rcases h with hold | ⟨hmem, hnear⟩
  · have hmore := (delivered_drain_ooo r).1
    exact Or.inl (by omega)
  · rcases held_drain_ooo hnear hmem with ⟨hheld, hnear'⟩ | hall
    · have hahead := hdrained.ahead segment hheld
      rw [hnear'.delta] at hahead
      exact Or.inr ⟨hheld, by omega, hnear'.high⟩
    · exact Or.inl hall

/-- Bytes in order release no more than what is held. -/
theorem Had.append (h : r.Had p segment) {data : Bytes}
    (hbudget : r.heldBytes + data.length ≤ 2 ^ 31) :
    (r.append data).drainOoo.Had p segment := by
  have hdelivered : (r.append data).deliveredOff = r.deliveredOff + data.length := rfl
  have hheld : (r.append data).heldBytes = r.heldBytes := rfl
  have hbalanced := h.accounted.toBalanced.append data
  refine had_drain_ooo hbalanced h.initialized h.place ?_
  rcases h.had with hold | ⟨hmem, hlow, hhigh⟩
  · exact Or.inl (by omega)
  · exact Or.inr ⟨hmem, hbalanced, h.place, by omega, by omega⟩

/-- A gap jumps to the first of the held segments, so that the others are still near. -/
theorem near_jump (h : r.Accounted) (hplace : segment.1 = r.baseSeq + BitVec.ofInt 32 p)
    (hmem : segment ∈ r.ooo) (hlow : r.deliveredOff < p) (hhigh : p < r.deliveredOff + 2 ^ 31)
    (hbudget : r.heldBytes ≤ 2 ^ 31) : r.jump.Near p segment := by
  obtain ⟨first, hfirst, htarget, hleast⟩ := exists_gap_target (List.ne_nil_of_mem hmem)
  have hdelta := seq_delta_place h.nextSeq hplace hhigh (by omega)
  have hdistance : ((segment.1 - r.nextSeq).toNat : Int) = p - r.deliveredOff := by
    rw [seqDelta, BitVec.toInt_eq_toNat_cond] at hdelta
    split at hdelta <;> omega
  have hjump : r.jump.deliveredOff = r.deliveredOff + (first.1 - r.nextSeq).toNat := by
    rw [← htarget]
    rfl
  have hheld : r.jump.heldBytes = r.heldBytes := rfl
  have hle := hleast segment hmem
  exact ⟨h.toBalanced.jump, hplace, by omega, by omega⟩

theorem Had.force_gap (h : r.Had p segment) (hbudget : r.heldBytes ≤ 2 ^ 31) :
    r.forceGap.Had p segment := by
  have hmore : r.deliveredOff ≤ r.jump.deliveredOff := Nat.le_add_right _ _
  rw [force_gap_eq]
  refine had_drain_ooo h.accounted.toBalanced.jump h.initialized h.place ?_
  rcases h.had with hold | ⟨hmem, hlow, hhigh⟩
  · exact Or.inl (by omega)
  · exact Or.inr ⟨hmem, near_jump h.accounted h.place hmem hlow hhigh hbudget⟩

/-- Holding one more segment, or giving up on a hole because of it. -/
theorem Had.hold_or_gap {full : Reassembler} (h : full.Had p segment)
    (hbudget : full.heldBytes ≤ 2 ^ 31) :
    (if full.oooBytes > full.oooLimit then (full.forceGap, true) else (full, false)).1.Had
      p segment := by
  split
  · exact h.force_gap hbudget
  · exact h

/-- What was had stays had when more segments arrive. -/
theorem Had.push (h : r.Had p segment) {data : Bytes} (hbudget : r.heldBytes + data.length ≤ 2 ^ 31)
    (seq : Seq) (nowUs : Nat) : (r.push seq data nowUs).1.Had p segment := by
  have hstart : r.start seq = r := by rw [Reassembler.start, if_pos h.initialized]
  unfold Reassembler.push
  split
  · exact h
  rw [hstart, pushData]
  split
  · split
    · exact h
    · refine h.append ?_
      rw [List.length_drop]
      omega
  · next hahead =>
      refine Had.hold_or_gap ⟨h.accounted.hold h.initialized (not_le.mp hahead) data nowUs,
        h.initialized, h.place, h.had.imp id fun hheld => ⟨?_, hheld.2⟩⟩ ?_
      · exact List.mem_append_left _ hheld.1
      · rw [held_bytes_hold]
        exact hbudget

/-- A segment that is pushed is had. -/
theorem had_push_self (h : r.Accounted) {seq : Seq} {data : Bytes} (hdata : data ≠ [])
    (hbudget : r.heldBytes + data.length ≤ 2 ^ 31) (nowUs : Nat) :
    (r.push seq data nowUs).1.Had ((r.start seq).placeOf seq) (seq, data) := by
  obtain ⟨hstart, hinit⟩ := h.start seq
  have hheld : (r.start seq).heldBytes = r.heldBytes := by
    unfold Reassembler.start
    split <;> rfl
  have hplace := place_of_spec hstart.nextSeq seq
  have hwhere : (r.start seq).placeOf seq =
      (r.start seq).deliveredOff + seqDelta seq (r.start seq).nextSeq := rfl
  have hpush : r.push seq data nowUs = (r.start seq).pushData seq data nowUs := by
    rw [Reassembler.push, if_neg (by simpa using hdata)]
  rw [hpush]
  generalize r.start seq = r at *
  have hoverlap : r.overlap seq = (-seqDelta seq r.nextSeq).toNat := rfl
  unfold pushData
  split
  · split
    · refine ⟨hstart, hinit, hplace, Or.inl ?_⟩
      show r.placeOf seq + data.length ≤ (r.deliveredOff : Int)
      omega
    · refine had_drain_ooo (hstart.toBalanced.append _) hinit hplace (Or.inl ?_)
      show r.placeOf seq + data.length ≤
        ((r.deliveredOff + (data.drop (r.overlap seq)).length : Nat) : Int)
      rw [List.length_drop]
      omega
  · next hahead =>
      have hdistance := distance_of_ahead (not_le.mp hahead)
      refine Had.hold_or_gap ⟨hstart.hold hinit (not_le.mp hahead) data nowUs, hinit, hplace,
        Or.inr ⟨List.mem_append_right _ (List.mem_singleton_self _), ?_, ?_⟩⟩ ?_
      · show (r.deliveredOff : Int) < _
        omega
      · show _ < (r.deliveredOff : Int) + 2 ^ 31
        have hless : 2 * (seq - r.nextSeq).toInt < 2 ^ 32 := BitVec.two_mul_toInt_lt
        rw [← seqDelta] at hless
        omega
      · rw [held_bytes_hold, hheld]
        exact hbudget

theorem Had.consume (h : r.Had p segment) (n : Nat) : (r.consume n).Had p segment := by
  obtain ⟨-, hbase, hooo, -, -, -, -, hinit, hdelivered, -⟩ :=
    reads_of_outside_eq (outside_consume r n)
  refine ⟨h.accounted.consume n, hinit.trans h.initialized, by rw [hbase]; exact h.place, ?_⟩
  rw [hooo, hdelivered]
  exact h.had

/-! ## Two copies -/

/-- The same reassembler with other held segments. -/
def withHeld (r : Reassembler) (held : List (Seq × Bytes)) (n : Nat) (since : Option Nat) :
    Reassembler :=
  { r with ooo := held, oooBytes := n, oooSinceUs := since }

/-- The same segments, or a second copy of one of them behind the first. -/
def Repeated (segment : Seq × Bytes) (ooo held : List (Seq × Bytes)) : Prop :=
  held = ooo ∨ ∃ before after, ooo = before ++ after ∧ held = before ++ segment :: after ∧
    segment ∈ before

/-- While segments are released, the second copy may outlast the first. None of it is new then. -/
def Doubled (p : Int) (segment : Seq × Bytes) (r : Reassembler) (held : List (Seq × Bytes)) :
    Prop :=
  held = r.ooo ∨ r.Near p segment ∧ ∃ before after, r.ooo = before ++ after ∧
    held = before ++ segment :: after ∧
      (segment ∈ before ∨ p + segment.2.length ≤ r.deliveredOff)

variable {held : List (Seq × Bytes)}

/-- Releasing does not look at what else is held. -/
theorem release_with_held (r : Reassembler) (held : List (Seq × Bytes)) (n : Nat)
    (since : Option Nat) (other : Seq × Bytes) :
    ((r.withHeld held n since).release other).appendTail other =
      ((r.release other).appendTail other).withHeld (held.eraseP r.due) (n - other.2.length)
        since := by
  have hoverlap : ((r.withHeld held n since).release other).overlap other.1 =
      (r.release other).overlap other.1 := rfl
  unfold appendTail
  rw [hoverlap]
  split <;> rfl

theorem ooo_release (r : Reassembler) (other : Seq × Bytes) :
    ((r.release other).appendTail other).ooo = r.ooo.eraseP r.due := by
  unfold appendTail
  split <;> rfl

/-- A copy of which nothing is new is released without a trace. -/
theorem release_old (h : r.Near p segment) (hold : p + segment.2.length ≤ r.deliveredOff)
    (held : List (Seq × Bytes)) (n : Nat) (since : Option Nat) :
    ((r.withHeld held n since).release segment).appendTail segment =
      r.withHeld (held.eraseP r.due) (n - segment.2.length) since := by
  have hbehind : r.overlap segment.1 = (-(p - r.deliveredOff)).toNat := by rw [overlap, h.delta]
  have hnothing : ¬((r.withHeld held n since).release segment).overlap segment.1 <
      segment.2.length := by
    show ¬r.overlap segment.1 < segment.2.length
    omega
  rw [appendTail, if_neg hnothing]
  rfl

/-- Once nothing is due, there is no trace of an old copy left. -/
theorem drain_ooo_doubled_last (h : r.Doubled p segment held) (n : Nat) (since : Option Nat)
    (hfind : held.find? r.due = none) :
    ∃ held' n' since', (r.withHeld held n since).drainOoo = r.drainOoo.withHeld held' n' since' ∧
      Repeated segment r.drainOoo.ooo held' := by
  have hnone : ∀ other ∈ held, ¬r.due other = true := List.find?_eq_none.mp hfind
  have hstays : r.ooo.find? r.due = none ∧ Repeated segment r.ooo held := by
    rcases h with rfl | ⟨hnear, before, after, hooo, rfl, hcopy⟩
    · exact ⟨hfind, Or.inl rfl⟩
    · have hnot := hnone segment (List.mem_append_right _ List.mem_cons_self)
      rw [due, hnear.delta, decide_eq_true_eq] at hnot
      refine ⟨List.find?_eq_none.mpr fun other hother => hnone other ?_,
        Or.inr ⟨before, after, hooo, rfl, hcopy.resolve_right fun hold => hnot (by omega)⟩⟩
      rw [hooo, List.mem_append] at hother
      exact List.mem_append.mpr (hother.imp id (List.mem_cons_of_mem _))
  obtain ⟨hquiet, hrepeated⟩ := hstays
  obtain ⟨since', hended⟩ : ∃ since', r.drainOoo = { r with oooSinceUs := since' } := by
    rw [drain_ooo_of_none hquiet]
    split
    · exact ⟨none, rfl⟩
    · exact ⟨_, rfl⟩
  have hfind' : (r.withHeld held n since).ooo.find? (r.withHeld held n since).due = none := hfind
  rw [drain_ooo_of_none hfind', hended]
  split
  · exact ⟨held, n, none, rfl, hrepeated⟩
  · exact ⟨held, n, since, rfl, hrepeated⟩

/-- The first of two copies is released before the second, which is then dropped. -/
theorem drain_ooo_doubled (h : r.Doubled p segment held) (n : Nat) (since : Option Nat) :
    ∃ held' n' since', (r.withHeld held n since).drainOoo = r.drainOoo.withHeld held' n' since' ∧
      Repeated segment r.drainOoo.ooo held' := by
  generalize htwin : r.withHeld held n since = twin
  induction twin using drainOoo.induct generalizing r held n since with
  | case1 twin other hfind ih =>
      subst htwin
      rw [drain_ooo_of_due hfind]
      have hfind : held.find? r.due = some other := hfind
      rcases h with rfl | ⟨hnear, before, after, hooo, rfl, hcopy⟩
      · -- both release the same
        rw [drain_ooo_of_due hfind]
        exact ih (Or.inl (ooo_release r other).symm) _ _ (release_with_held r _ n since other).symm
      rw [List.find?_append] at hfind
      cases hbefore : before.find? r.due with
      | some found =>
          rw [hbefore, Option.some_or] at hfind
          obtain rfl := Option.some.inj hfind
          have hdue := List.find?_some hbefore
          have hmem := List.mem_of_find?_eq_some hbefore
          have hfound : r.ooo.find? r.due = some found := by
            rw [hooo, List.find?_append, hbefore, Option.some_or]
          obtain ⟨hnear', hmore, hall⟩ := hnear.release hfound
          rw [drain_ooo_of_due hfound]
          refine ih (Or.inr ⟨hnear', before.eraseP r.due, after, ?_, ?_, ?_⟩) _ _
            (release_with_held r _ n since found).symm
          · rw [ooo_release, hooo, List.eraseP_append_left hdue _ hmem]
          · rw [List.eraseP_append_left hdue _ hmem]
          · rcases hcopy with hfirst | hold
            · by_cases hsame : found = segment
              · exact Or.inr (hall hsame)
              · obtain ⟨front, back, hsplit, hkept⟩ := exists_found hbefore
                rw [hsplit, List.mem_append, List.mem_cons] at hfirst
                rw [hkept, List.mem_append]
                exact Or.inl (hfirst.imp id fun hrest => hrest.resolve_left (Ne.symm hsame))
            · exact Or.inr (by omega)
      | none =>
          have hnone := List.find?_eq_none.mp hbefore
          rw [hbefore, Option.none_or] at hfind
          rcases hcopy with hfirst | hold
          · -- with the first copy ahead, so is the second
            have hnot := hnone segment hfirst
            rw [List.find?_cons_of_neg hnot] at hfind
            have hfound : r.ooo.find? r.due = some other := by
              rw [hooo, List.find?_append, hbefore, Option.none_or, hfind]
            obtain ⟨hnear', -, -⟩ := hnear.release hfound
            rw [drain_ooo_of_due hfound]
            refine ih (Or.inr ⟨hnear', before, after.eraseP r.due, ?_, ?_, Or.inl hfirst⟩) _ _
              (release_with_held r _ n since other).symm
            · rw [ooo_release, hooo, List.eraseP_append_right _ hnone]
            · rw [List.eraseP_append_right _ hnone, List.eraseP_cons_of_neg hnot]
          · -- none of it is new, so that it is due
            have hdue : r.due segment = true := by
              rw [due, hnear.delta, decide_eq_true_eq]
              omega
            rw [List.find?_cons_of_pos hdue] at hfind
            obtain rfl := Option.some.inj hfind
            refine ih (Or.inl ?_) _ _ (release_old hnear hold _ n since).symm
            rw [List.eraseP_append_right _ hnone, List.eraseP_cons_of_pos hdue, hooo]
  | case2 twin hfind hempty =>
      subst htwin
      exact drain_ooo_doubled_last h n since hfind
  | case3 twin hfind hempty =>
      subst htwin
      exact drain_ooo_doubled_last h n since hfind

theorem Repeated.mem_iff {ooo : List (Seq × Bytes)} (h : Repeated segment ooo held)
    (other : Seq × Bytes) : other ∈ held ↔ other ∈ ooo := by
  rcases h with rfl | ⟨before, after, rfl, rfl, hmem⟩
  · exact Iff.rfl
  · simp only [List.mem_append, List.mem_cons]
    constructor
    · rintro (hbefore | rfl | hafter)
      · exact Or.inl hbefore
      · exact Or.inl hmem
      · exact Or.inr hafter
    · exact fun hother => hother.imp id Or.inr

/-- Segments that are held later come after both copies. -/
theorem Repeated.concat {ooo : List (Seq × Bytes)} (h : Repeated segment ooo held)
    (other : Seq × Bytes) : Repeated segment (ooo ++ [other]) (held ++ [other]) := by
  rcases h with rfl | ⟨before, after, rfl, rfl, hmem⟩
  · exact Or.inl rfl
  · refine Or.inr ⟨before, after ++ [other], ?_, ?_, hmem⟩
    · rw [List.append_assoc]
    · rw [List.append_assoc, List.cons_append]

/-- Where a gap jumps to depends on which segments are held, not on how often. -/
theorem gap_target_congr {a b : Reassembler} (hnext : a.nextSeq = b.nextSeq)
    (hmem : ∀ other, other ∈ a.ooo ↔ other ∈ b.ooo) : a.gapTarget = b.gapTarget := by
  by_cases hempty : a.ooo = []
  · have hempty' : b.ooo = [] := by
      rw [List.eq_nil_iff_forall_not_mem] at hempty ⊢
      exact fun other hother => hempty other ((hmem other).mpr hother)
    rw [gap_target_of_empty hempty, gap_target_of_empty hempty', hnext]
  · have hsome : b.ooo ≠ [] := by
      obtain ⟨other, hother⟩ := List.exists_mem_of_ne_nil _ hempty
      exact List.ne_nil_of_mem ((hmem other).mp hother)
    obtain ⟨first, hfirst, htarget, hleast⟩ := exists_gap_target hempty
    obtain ⟨first', hfirst', htarget', hleast'⟩ := exists_gap_target hsome
    have hle := hleast first' ((hmem first').mpr hfirst')
    have hge := hleast' first ((hmem first).mp hfirst)
    rw [← hnext] at hge
    rw [htarget, htarget', seq_eq_add_distance a.nextSeq first.1,
      seq_eq_add_distance a.nextSeq first'.1, le_antisymm hle hge]

/-- A held segment lies less than half of the number space ahead. -/
theorem place_of_held (h : r.Accounted) (hmem : segment ∈ r.ooo) :
    r.deliveredOff < r.placeOf segment.1 ∧
      r.placeOf segment.1 < r.deliveredOff + 2 ^ 31 := by
  have hahead := h.ahead segment hmem
  have hless : 2 * (segment.1 - r.nextSeq).toInt < 2 ^ 32 := BitVec.two_mul_toInt_lt
  rw [← seqDelta] at hless
  rw [placeOf]
  omega

/-- Both copies are near where both are held. -/
theorem doubled_of_repeated {r' : Reassembler} (hsame : r'.ooo = r.ooo)
    (hrepeated : Repeated segment r.ooo held)
    (hnear : segment ∈ r.ooo → r'.Near (r.placeOf segment.1) segment) :
    r'.Doubled (r.placeOf segment.1) segment held := by
  rcases hrepeated with rfl | ⟨before, after, hooo, rfl, hmem⟩
  · exact Or.inl hsame.symm
  · refine Or.inr ⟨hnear (by rw [hooo]; exact List.mem_append_left _ hmem), before, after, ?_, rfl,
      Or.inl hmem⟩
    rw [hsame, hooo]

theorem repeated_append (h : r.Accounted) (hrepeated : Repeated segment r.ooo held) {data : Bytes}
    (hbudget : r.heldBytes + data.length ≤ 2 ^ 31) (n : Nat) (since : Option Nat) :
    ∃ held' n' since', ((r.withHeld held n since).append data).drainOoo =
      (r.append data).drainOoo.withHeld held' n' since' ∧
        Repeated segment (r.append data).drainOoo.ooo held' := by
  have hdelivered : (r.append data).deliveredOff = r.deliveredOff + data.length := rfl
  have hheld : (r.append data).heldBytes = r.heldBytes := rfl
  have hsame : (r.append data).ooo = r.ooo := rfl
  refine drain_ooo_doubled (doubled_of_repeated hsame hrepeated fun hmem => ?_) n since
  obtain ⟨hlow, hhigh⟩ := place_of_held h hmem
  exact ⟨h.toBalanced.append data, place_of_spec h.nextSeq segment.1, by omega, by omega⟩

theorem repeated_force_gap (h : r.Accounted) (hrepeated : Repeated segment r.ooo held)
    (hbudget : r.heldBytes ≤ 2 ^ 31) (n : Nat) (since : Option Nat) :
    ∃ held' n' since', (r.withHeld held n since).forceGap =
      r.forceGap.withHeld held' n' since' ∧ Repeated segment r.forceGap.ooo held' := by
  have htarget : (r.withHeld held n since).gapTarget = r.gapTarget :=
    gap_target_congr rfl hrepeated.mem_iff
  have hjump : (r.withHeld held n since).jump = r.jump.withHeld held n none := by
    unfold jump
    rw [htarget]
    rfl
  rw [force_gap_eq, force_gap_eq, hjump]
  have hsame : r.jump.ooo = r.ooo := rfl
  refine drain_ooo_doubled (doubled_of_repeated hsame hrepeated fun hmem => ?_) n none
  obtain ⟨hlow, hhigh⟩ := place_of_held h hmem
  exact near_jump h (place_of_spec h.nextSeq segment.1) hmem hlow hhigh hbudget

/-- A reassembler, and the same one after a second copy of a segment. -/
structure Twin (segment : Seq × Bytes) (r twin : Reassembler) : Prop where
  accounted : r.Accounted
  accounted_twin : twin.Accounted
  exists_held : ∃ held n since, twin = r.withHeld held n since ∧ Repeated segment r.ooo held

variable {twin : Reassembler}

/-- The second copy does not make a held segment overflow the limit. -/
def RoomForBoth (r : Reassembler) (segment : Seq × Bytes) (seq : Seq) (data : Bytes) : Prop :=
  segment ∈ r.ooo → 0 < seqDelta seq r.nextSeq → r.oooBytes + data.length ≤ r.oooLimit →
    r.oooBytes + segment.2.length + data.length ≤ r.oooLimit

/-- The second copy counts once more. -/
theorem Twin.ooo_bytes (h : Twin segment r twin) : twin.oooBytes = r.oooBytes ∨
    segment ∈ r.ooo ∧ twin.oooBytes = r.oooBytes + segment.2.length := by
  have hbytes := h.accounted.oooBytes
  have hbytes' := h.accounted_twin.oooBytes
  obtain ⟨held, n, since, rfl, hrepeated⟩ := h.exists_held
  rcases hrepeated with hsame | ⟨before, after, hooo, rfl, hmem⟩
  · left
    rw [hbytes', hbytes, heldBytes, heldBytes]
    show (held.map _).sum = _
    rw [hsame]
  · right
    refine ⟨by rw [hooo]; exact List.mem_append_left _ hmem, ?_⟩
    rw [hbytes', hbytes, heldBytes, heldBytes, hooo]
    show ((before ++ segment :: after).map fun s => s.2.length).sum = _
    simp only [List.map_append, List.map_cons, List.sum_append, List.sum_cons]
    omega

/-- Both reassemblers treat a segment alike, once they have started. -/
theorem push_data_repeated (h : r.Accounted) (hinit : r.initialized = true)
    (hrepeated : Repeated segment r.ooo held) {n : Nat}
    (hn : n = r.oooBytes ∨ segment ∈ r.ooo ∧ n = r.oooBytes + segment.2.length) {seq : Seq}
    {data : Bytes} (hbudget : r.heldBytes + data.length ≤ 2 ^ 31)
    (hroom : r.RoomForBoth segment seq data) (since : Option Nat) (nowUs : Nat) :
    ∃ held' n' since', (r.withHeld held n since).pushData seq data nowUs =
      ((r.pushData seq data nowUs).1.withHeld held' n' since', (r.pushData seq data nowUs).2) ∧
        Repeated segment (r.pushData seq data nowUs).1.ooo held' := by
  have hoverlap : (r.withHeld held n since).overlap seq = r.overlap seq := rfl
  have hdelta : seqDelta seq (r.withHeld held n since).nextSeq = seqDelta seq r.nextSeq := rfl
  have hhold : (r.withHeld held n since).hold seq data nowUs = (r.hold seq data nowUs).withHeld
      (held ++ [(seq, data)]) (n + data.length) (since.or (some nowUs)) := rfl
  unfold pushData
  rw [hoverlap, hdelta]
  by_cases hdue : seqDelta seq r.nextSeq ≤ 0
  · rw [if_pos hdue, if_pos hdue]
    by_cases hold : r.overlap seq ≥ data.length
    · rw [if_pos hold, if_pos hold]
      exact ⟨held, n, since, rfl, hrepeated⟩
    · have hless : r.heldBytes + (data.drop (r.overlap seq)).length ≤ 2 ^ 31 := by
        rw [List.length_drop]
        omega
      obtain ⟨held', n', since', hdrain, hrepeated'⟩ :=
        repeated_append h hrepeated hless n since
      rw [if_neg hold, if_neg hold]
      exact ⟨held', n', since', congrArg (·, false) hdrain, hrepeated'⟩
  · have hahead := not_le.mp hdue
    have hconcat := hrepeated.concat (seq, data)
    have hbase : (r.hold seq data nowUs).oooBytes = r.oooBytes + data.length := rfl
    have hmore : ((r.hold seq data nowUs).withHeld (held ++ [(seq, data)]) (n + data.length)
        (since.or (some nowUs))).oooBytes = n + data.length := rfl
    have hlimit : (r.withHeld held n since).oooLimit = r.oooLimit := rfl
    rw [if_neg hdue, if_neg hdue, hhold, hbase, hmore, hlimit]
    by_cases hover : r.oooBytes + data.length > r.oooLimit
    · have hover' : n + data.length > r.oooLimit := by omega
      obtain ⟨held', n', since', hgap, hrepeated'⟩ :=
        repeated_force_gap (h.hold hinit hahead data nowUs) hconcat
          (by rw [held_bytes_hold]; exact hbudget) (n + data.length) (since.or (some nowUs))
      rw [if_pos hover, if_pos hover']
      exact ⟨held', n', since', congrArg (·, true) hgap, hrepeated'⟩
    · have hfits : ¬n + data.length > r.oooLimit := by
        rcases hn with rfl | ⟨hmem, rfl⟩
        · exact hover
        · exact not_lt.mpr (hroom hmem hahead (not_lt.mp hover))
      rw [if_neg hover, if_neg hfits]
      exact ⟨_, _, _, rfl, hconcat⟩

/-- Both reassemblers treat a segment alike. -/
theorem Twin.push (h : Twin segment r twin) {seq : Seq} {data : Bytes}
    (hbudget : r.heldBytes + data.length ≤ 2 ^ 31) (hroom : r.RoomForBoth segment seq data)
    (nowUs : Nat) :
    Twin segment (r.push seq data nowUs).1 (twin.push seq data nowUs).1 ∧
      (twin.push seq data nowUs).2 = (r.push seq data nowUs).2 := by
  have hpushed := h.accounted.push seq data nowUs
  have hpushed' := h.accounted_twin.push seq data nowUs
  have hn := h.ooo_bytes
  obtain ⟨held, n, since, rfl, hrepeated⟩ := h.exists_held
  have halike : ∃ held' n' since', (r.withHeld held n since).push seq data nowUs =
      ((r.push seq data nowUs).1.withHeld held' n' since', (r.push seq data nowUs).2) ∧
        Repeated segment (r.push seq data nowUs).1.ooo held' := by
    unfold Reassembler.push
    split
    · exact ⟨held, n, since, rfl, hrepeated⟩
    · obtain ⟨hstart, hinit⟩ := h.accounted.start seq
      have hsame : (r.start seq).ooo = r.ooo ∧ (r.start seq).oooBytes = r.oooBytes ∧
          (r.start seq).heldBytes = r.heldBytes ∧ (r.start seq).oooLimit = r.oooLimit ∧
          (r.withHeld held n since).start seq = (r.start seq).withHeld held n since := by
        have hinit' : (r.withHeld held n since).initialized = r.initialized := rfl
        unfold Reassembler.start
        rw [hinit']
        split <;> exact ⟨rfl, rfl, rfl, rfl, rfl⟩
      obtain ⟨hooo, hbytes, hheld, hlimit, hwith⟩ := hsame
      rw [hwith]
      refine push_data_repeated hstart hinit (by rw [hooo]; exact hrepeated)
        (by rw [hooo, hbytes]; exact hn) (by rw [hheld]; exact hbudget) ?_ since nowUs
      intro hmem hahead
      rw [hooo] at hmem
      -- something is held, so the direction has started before
      have hstarted : r.start seq = r := by
        rw [Reassembler.start, if_pos]
        by_contra hnot
        rw [(h.accounted.unstarted (by simpa using hnot)).2] at hmem
        cases hmem
      rw [hstarted] at hahead ⊢
      exact hroom hmem hahead
  obtain ⟨held', n', since', heq, hrepeated'⟩ := halike
  rw [heq] at hpushed' ⊢
  exact ⟨⟨hpushed, hpushed', held', n', since', rfl, hrepeated'⟩, rfl⟩

/-- A second copy of a segment that is had is dropped, or held beside the first. -/
theorem Had.push_again {seq : Seq} {data : Bytes} (h : r.Had p (seq, data)) (hdata : data ≠ [])
    (hrecent : (r.deliveredOff : Int) ≤ p + 2 ^ 31)
    (hroom : (seq, data) ∈ r.ooo → r.oooBytes + data.length ≤ r.oooLimit) (nowUs : Nat) :
    Twin (seq, data) r (r.push seq data nowUs).1 ∧ (r.push seq data nowUs).2 = false := by
  have hpushed := h.accounted.push seq data nowUs
  have hstart : r.start seq = r := by rw [Reassembler.start, if_pos h.initialized]
  have hpush : r.push seq data nowUs = r.pushData seq data nowUs := by
    rw [Reassembler.push, if_neg (by simpa using hdata), hstart]
  rw [hpush] at hpushed ⊢
  rcases h.had with hold | ⟨hmem, hlow, hhigh⟩
  · have hnonempty := List.length_pos_iff.mpr hdata
    have hold : p + data.length ≤ r.deliveredOff := hold
    have hdelta : seqDelta seq r.nextSeq = p - r.deliveredOff :=
      seq_delta_place h.accounted.nextSeq h.place (by omega) hrecent
    have hsame : r.pushData seq data nowUs = (r, false) := by
      have hbehind : r.overlap seq ≥ data.length := by
        rw [overlap, hdelta]
        omega
      rw [pushData, if_pos (by omega), if_pos hbehind]
    rw [hsame]
    exact ⟨⟨h.accounted, h.accounted, r.ooo, r.oooBytes, r.oooSinceUs, rfl, Or.inl rfl⟩, rfl⟩
  · have hdelta : seqDelta seq r.nextSeq = p - r.deliveredOff :=
      seq_delta_place h.accounted.nextSeq h.place hhigh hrecent
    have hfits : ¬(r.hold seq data nowUs).oooBytes > r.oooLimit := not_lt.mpr (hroom hmem)
    have hheld : r.pushData seq data nowUs = (r.hold seq data nowUs, false) := by
      rw [pushData, if_neg (by omega), if_neg hfits]
    rw [hheld] at hpushed ⊢
    refine ⟨⟨h.accounted, hpushed, r.ooo ++ [(seq, data)], _, _, rfl, Or.inr ?_⟩, rfl⟩
    exact ⟨r.ooo, [], (List.append_nil _).symm, rfl, hmem⟩

end H2Tap.Reassembler
