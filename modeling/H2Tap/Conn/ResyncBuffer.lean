import H2Tap.Conn.Resync

/-!
# What is buffered while hunting

While `try_resync` waits at an offset that may be a frame boundary it drops nothing. It never waits
for more than one frame and the header after it (`length_of_need_more`), so what is buffered is
bounded exactly if the offsets at which it waits are: `resync_bounded_iff`. `noise_unbounded` is a
peer that offers a fresh offset to wait at with every segment.
-/

namespace H2Tap

open Lib

/-! ## Chains that are waited for -/

/-- Enough frames have been accepted: the chain is not waited for. -/
theorem chain_accepted {b : Bytes} {minAccept ok left : Nat} (h : minAccept ≤ ok) :
    checkChainFrom minAccept ok b left ≠ .needMore := by
  induction left generalizing b ok with
  | zero => exact ChainCheck.noConfusion
  | succ left ih =>
      rw [checkChainFrom]
      cases FrameHeader.parse b with
      | none =>
          dsimp only
          rw [if_pos h]
          exact ChainCheck.noConfusion
      | some hdr =>
          dsimp only
          split
          · exact ih (by omega)
          · exact ChainCheck.noConfusion

/-- One turn of the chain that waits: the bytes end, or the frame is plausible and what comes after
it waits. -/
theorem chain_need_more {b : Bytes} {minAccept ok left : Nat}
    (h : checkChainFrom minAccept ok b (left + 1) = .needMore) :
    b.length < frameHeaderLen ∨ ∃ hdr : FrameHeader, hdr.len ≤ maxPlausibleFrame ∧
      checkChainFrom minAccept (ok + 1) (b.drop hdr.totalLen) left = .needMore := by
  rw [checkChainFrom] at h
  cases hparse : FrameHeader.parse b with
  | none => exact Or.inl ((FrameHeader.parse_eq_none_iff b).mp hparse)
  | some hdr =>
      rw [hparse] at h
      dsimp only at h
      split at h
      · next hplausible =>
          refine Or.inr ⟨hdr, ?_, h⟩
          by_contra hlong
          have hlarge : (decide (hdr.typ > 0x0c) || decide (hdr.len > maxPlausibleFrame)) =
              true := by
            rw [decide_eq_true (not_le.mp hlong), Bool.or_true]
          rw [frameHeaderPlausible, if_pos hlarge] at hplausible
          exact Bool.noConfusion hplausible
      · cases h

/-- The hunt only waits for the end of the next frame, and for the header after it. -/
theorem length_of_need_more {b : Bytes} (h : checkFrameChain b 4 2 = .needMore) :
    b.length < maxPlausibleFrame + 2 * frameHeaderLen := by
  rcases chain_need_more h with hshort | ⟨hdr, hlen, hnext⟩
  · omega
  rcases chain_need_more hnext with hshort | ⟨second, -, haccepted⟩
  · rw [List.length_drop, FrameHeader.totalLen] at hshort
    omega
  · exact absurd haccepted (chain_accepted (le_refl 2))

/-- The hunt waits at `off`: no boundary starts before it, and one may start there. -/
structure WaitsAt (a : Bytes) (off : Nat) : Prop where
  within : off + frameHeaderLen ≤ a.length
  needMore : checkFrameChain (a.drop off) 4 2 = .needMore
  before : ∀ o < off, checkFrameChain (a.drop o) 4 2 = .bad

namespace Direction

/-- The scan waits where the hunt does. -/
theorem scan_boundary_waits {a : Bytes} {off : Nat} (h : WaitsAt a off) :
    scanBoundary a = some (off, false) := by
  have hnot : checkFrameChain (a.drop off) 4 2 ≠ .bad := by
    rw [h.needMore]
    exact ChainCheck.noConfusion
  cases hscan : scanBoundary a with
  | none => exact absurd (scan_boundary_none hscan h.within) hnot
  | some candidate =>
      obtain ⟨off', found⟩ := candidate
      obtain ⟨-, hchain, hbefore⟩ := scan_boundary_some hscan
      rcases lt_trichotomy off' off with hlt | rfl | hgt
      · rw [h.before off' hlt] at hchain
        cases found <;> cases hchain
      · rw [h.needMore] at hchain
        cases found with
        | false => rfl
        | true => cases hchain
      · exact absurd (hbefore off hgt) hnot

variable [HuffmanDecoding]

/-! ## The end of the loop -/

/-- The loop ends in a turn that stops. -/
theorem exists_last_turn (d : Direction) : ∃ t ∈ d.turns, t.parseStep = .stop d.parse.1 := by
  induction hwork : d.work using Nat.strongRecOn generalizing d with
  | ind n ih =>
      subst hwork
      cases hstep : d.parseStep with
      | stop d' =>
          rw [parse_of_stop hstep, turns_of_stop hstep]
          exact ⟨d, List.mem_singleton_self d, hstep⟩
      | more d' frame =>
          obtain ⟨t, ht, hlast⟩ := ih _ (work_parse_step hstep) d' rfl
          rw [parse_of_more hstep]
          exact ⟨t, mem_turns_of_more hstep ht, hlast⟩

/-- A turn that stops is the last. -/
theorem parse_of_mem_turns {d t t' : Direction} (ht : t ∈ d.turns)
    (hstop : t.parseStep = .stop t') : d.parse.1 = t' := by
  induction hwork : d.work using Nat.strongRecOn generalizing d with
  | ind n ih =>
      subst hwork
      cases hstep : d.parseStep with
      | stop d' =>
          rw [turns_of_stop hstep, List.mem_singleton] at ht
          rw [ht, hstep] at hstop
          cases hstop
          rw [parse_of_stop hstep]
      | more d' frame =>
          rw [turns_of_more hstep] at ht
          rw [parse_of_more hstep]
          rcases List.mem_cons.mp ht with rfl | hlater
          · rw [hstep] at hstop
            cases hstop
          · exact ih _ (work_parse_step hstep) hlater rfl

/-- A turn that waits changes nothing. -/
theorem parse_step_waits {t : Direction} (hhunt : t.hunting = true) {off : Nat}
    (hwaits : WaitsAt t.reasm.available off) : t.parseStep = .stop t := by
  have hwithin := hwaits.within
  rw [parse_step_hunting hhunt, resync_step_eq, if_neg (by omega), scan_boundary_waits hwaits]

/-- What is left in the buffer when the loop stops off the frame boundaries: a window at most, or
what a hunt waits with. -/
theorem buffered_of_stop {t t' : Direction} (hstop : t.parseStep = .stop t')
    (hlost : t'.desynced = true) : t'.reasm.available.length ≤ resyncWindow ∨
      t' = t ∧ t.hunting = true ∧ ∃ off, WaitsAt t.reasm.available off := by
  unfold parseStep at hstop
  split at hstop
  · -- all of the buffer was part of a dropped payload
    simp only [discardStep] at hstop
    split at hstop
    · cases hstop
      exact Or.inl (by omega)
    · cases hstop
  next hdiscard =>
    split at hstop
    · simp only [seekStep] at hstop
      split at hstop
      · split at hstop
        · cases hstop
          exact Or.inl (by omega)
        · cases hstop
      · split at hstop <;> cases hstop
    next hpending =>
      split at hstop
      · next hdesynced =>
          have hhunt : t.hunting = true := by
            have hnone : t.discard = 0 := by omega
            simp [hunting, hnone, hpending, hdesynced]
          have hwindow : frameHeaderLen ≤ resyncWindow := by decide
          rw [resync_step_eq] at hstop
          split at hstop
          · cases hstop
            exact Or.inl (by omega)
          · split at hstop
            · cases hstop
            · next off hscan =>
                cases hstop
                obtain ⟨hoff, hchain, hbefore⟩ := scan_boundary_some hscan
                exact Or.inr ⟨rfl, hhunt, off, by omega, hchain, hbefore⟩
            · split at hstop
              · -- nothing was plausible, so the front was dropped
                have hdropped : t'.reasm.available.length =
                    t.reasm.available.length - (t.reasm.available.length - resyncWindow) := by
                  rw [← Progress.stop.inj hstop, Reassembler.available_consume, List.length_drop]
                exact Or.inl (by omega)
              · cases hstop
                exact Or.inl (by omega)
      · next hsynced =>
          -- the other turns stop without a change, and not off the boundaries
          have hsame : t' = t := by
            split at hstop
            · simp only [prefaceStep] at hstop
              split at hstop
              · exact (Progress.stop.inj hstop).symm
              · split at hstop <;> cases hstop
            · unfold frameStep at hstop
              split at hstop
              · exact (Progress.stop.inj hstop).symm
              · split at hstop
                · split at hstop
                  · exact (Progress.stop.inj hstop).symm
                  · cases hstop
                · cases hstop
          rw [hsame] at hlost
          exact absurd hlost hsynced

/-! ## Runs -/

/-- After each segment, a direction that is still off the frame boundaries has at most `bound` bytes
buffered. -/
def BuffersWithin (bound : Nat) (d : Direction) (seq : Seq)
    (segments : List (Bytes × Nat)) : Prop :=
  ∀ before segment after, segments = before ++ segment :: after →
    (run perform d (segmentOps seq (before ++ [segment]))).1.desynced = true →
      (run perform d (segmentOps seq (before ++ [segment]))).1.reasm.available.length ≤ bound

/-- Whenever `try_resync` waits, the offset that it waits at is at most `bound`. -/
def WaitsWithin (bound : Nat) (d : Direction) (seq : Seq)
    (segments : List (Bytes × Nat)) : Prop :=
  ∀ t ∈ d.runTurns (segmentOps seq segments), t.hunting = true →
    ∀ off, WaitsAt t.reasm.available off → off ≤ bound

/-- The loop that a segment runs. -/
theorem segment_turns (d : Direction) (seq : Seq) {segments before after : List (Bytes × Nat)}
    {segment : Bytes × Nat} (hsplit : segments = before ++ segment :: after) :
    ∃ start : Direction, (run perform d (segmentOps seq (before ++ [segment]))).1 = start.parse.1 ∧
      ∀ t ∈ start.turns, t ∈ d.runTurns (segmentOps seq segments) := by
  subst hsplit
  induction before generalizing d seq with
  | nil =>
      exact ⟨d.withReassembled (d.reasm.push seq segment.1 segment.2), rfl,
        fun t ht => List.mem_append_left _ ht⟩
  | cons first before ih =>
      obtain ⟨start, hend, hturns⟩ := ih (d.perform (.feed seq first.1 first.2)).1
        (seq + BitVec.ofNat 32 first.1.length)
      exact ⟨start, hend, fun t ht => List.mem_append_right _ (hturns t ht)⟩

/-- Every turn of a run belongs to the loop of one of its segments. -/
theorem exists_segment_of_turn {d : Direction} {seq : Seq} {segments : List (Bytes × Nat)}
    {t : Direction} (ht : t ∈ d.runTurns (segmentOps seq segments)) :
    ∃ before segment after, ∃ start : Direction, segments = before ++ segment :: after ∧
      (run perform d (segmentOps seq (before ++ [segment]))).1 = start.parse.1 ∧
      t ∈ start.turns := by
  induction segments generalizing d seq with
  | nil => cases ht
  | cons first segments ih =>
      rcases List.mem_append.mp ht with ht | ht
      · exact ⟨[], first, segments, _, rfl, rfl, ht⟩
      · obtain ⟨before, segment, after, start, rfl, hend, hturn⟩ := ih ht
        exact ⟨first :: before, segment, after, start, rfl, hend, hturn⟩

/-- For any set of runs, what is buffered off the frame boundaries is bounded if and only if the
offsets at which `try_resync` waits are. -/
theorem resync_bounded_iff (runs : Direction → Seq → List (Bytes × Nat) → Prop) :
    (∃ bound, ∀ d seq segments, runs d seq segments → BuffersWithin bound d seq segments) ↔
      ∃ bound, ∀ d seq segments, runs d seq segments → WaitsWithin bound d seq segments := by
  constructor
  · rintro ⟨bound, hbuffers⟩
    refine ⟨bound, fun d seq segments hrun t ht hhunt off hwaits => ?_⟩
    obtain ⟨before, segment, after, start, hsplit, hend, hturn⟩ := exists_segment_of_turn ht
    have hlast : start.parse.1 = t := parse_of_mem_turns hturn (parse_step_waits hhunt hwaits)
    rw [hlast] at hend
    have hlost : t.desynced = true := by
      simp only [hunting, Bool.and_eq_true] at hhunt
      exact hhunt.2
    have hbuffered := hbuffers d seq segments hrun before segment after hsplit
    rw [hend] at hbuffered
    have hwithin := hwaits.within
    have hlength := hbuffered hlost
    omega
  · rintro ⟨bound, hwaiting⟩
    refine ⟨resyncWindow + bound + maxPlausibleFrame + 2 * frameHeaderLen,
      fun d seq segments hrun before segment after hsplit hlost => ?_⟩
    obtain ⟨start, hend, hturns⟩ := segment_turns d seq hsplit
    rw [hend] at hlost ⊢
    obtain ⟨t, ht, hlast⟩ := exists_last_turn start
    rcases buffered_of_stop hlast hlost with hshort | ⟨hsame, hhunt, off, hwaits⟩
    · omega
    · have hoff := hwaiting d seq segments hrun t (hturns t ht) hhunt off hwaits
      have hrest := length_of_need_more hwaits.needMore
      rw [List.length_drop] at hrest
      rw [hsame]
      omega

/-! ## A peer that never forms a chain -/

/-- A plausible header of a frame of 256 bytes, and noise. -/
def noiseCell : Bytes := [0, 1, 0, 0x0a] ++ List.replicate 12 0xff

def noise (n : Nat) : Bytes := (List.replicate n noiseCell).flatten

section

omit [HuffmanDecoding]

theorem noise_succ (n : Nat) : noise (n + 1) = noiseCell ++ noise n := rfl

theorem noise_concat (n : Nat) : noise (n + 1) = noise n ++ noiseCell := by
  rw [noise, List.replicate_succ', List.flatten_append, List.flatten_singleton]
  rfl

theorem noise_length (n : Nat) : (noise n).length = 16 * n := by
  induction n with
  | zero => rfl
  | succ n ih =>
      rw [noise_succ, List.length_append, ih]
      show 16 + 16 * n = _
      omega

/-- The bytes from an offset on: the rest of a cell, and further ones. -/
theorem noise_drop {n c r : Nat} (hc : c < n) (hr : r < 16) :
    ∃ m, (noise n).drop (16 * c + r) = noiseCell.drop r ++ noise m := by
  induction c generalizing n with
  | zero =>
      obtain ⟨m, rfl⟩ : ∃ m, n = m + 1 := ⟨n - 1, by omega⟩
      refine ⟨m, ?_⟩
      have hle : r ≤ noiseCell.length := hr.le
      rw [noise_succ, Nat.mul_zero, Nat.zero_add, List.drop_append_of_le_length hle]
  | succ c ih =>
      obtain ⟨m, rfl⟩ : ∃ m, n = m + 1 := ⟨n - 1, by omega⟩
      obtain ⟨rest, hrest⟩ := ih (n := m) (by omega)
      refine ⟨rest, ?_⟩
      have hskip : 16 * (c + 1) + r = noiseCell.length + (16 * c + r) := by
        show _ = 16 + (16 * c + r)
        omega
      rw [noise_succ, hskip, ← List.drop_drop, List.drop_left, hrest]

/-- Inside a cell there is no plausible header. -/
theorem no_header_inside {r : Nat} (hpos : 0 < r) (hr : r < 16) (m : Nat) :
    (FrameHeader.parse (noiseCell.drop r ++ noise m)).any frameHeaderPlausible = false := by
  have hclosed : ∀ r < 16, 0 < r →
      (FrameHeader.parse (noiseCell.drop r)).any frameHeaderPlausible = false ∧
      (FrameHeader.parse (noiseCell.drop r ++ noiseCell)).map frameHeaderPlausible =
        some false := by
    decide +kernel
  obtain ⟨hlast, hnext⟩ := hclosed r hr hpos
  obtain ⟨hdr, hparse, hbad⟩ := Option.map_eq_some_iff.mp hnext
  cases m with
  | zero =>
      rw [noise, List.replicate_zero, List.flatten_nil, List.append_nil]
      exact hlast
  | succ m =>
      rw [noise_succ, ← List.append_assoc, FrameHeader.parse_append hparse]
      exact hbad

/-- A chain does not end well in a place where no plausible header starts. -/
theorem chain_not_ok_of_no_header {b : Bytes} {ok left : Nat} (hok : ok < 2)
    (hnone : (FrameHeader.parse b).any frameHeaderPlausible = false) :
    checkChainFrom 2 ok b (left + 1) ≠ .ok := by
  rw [checkChainFrom]
  cases hparse : FrameHeader.parse b with
  | none =>
      dsimp only
      rw [if_neg (by omega)]
      exact ChainCheck.noConfusion
  | some hdr =>
      rw [hparse] at hnone
      dsimp only
      have hbad : frameHeaderPlausible hdr = false := hnone
      rw [hbad]
      exact ChainCheck.noConfusion

/-- No offset of the noise is accepted. -/
theorem noise_not_ok (n off : Nat) : checkFrameChain ((noise n).drop off) 4 2 ≠ .ok := by
  by_cases hend : 16 * n ≤ off
  · rw [List.drop_eq_nil_of_le (by rw [noise_length]; exact hend)]
    decide
  obtain ⟨m, hm⟩ := noise_drop (c := off / 16) (r := off % 16) (n := n) (by omega) (by omega)
  rw [Nat.div_add_mod] at hm
  rw [hm, checkFrameChain]
  rcases Nat.eq_zero_or_pos (off % 16) with hzero | hpos
  · -- the header of a cell, after whose frame no header follows
    obtain ⟨hdr, hparse, hlen, hplausible⟩ : ∃ hdr, FrameHeader.parse noiseCell = some hdr ∧
        hdr.totalLen = 265 ∧ frameHeaderPlausible hdr = true := ⟨_, rfl, rfl, rfl⟩
    rw [hzero, List.drop_zero, checkChainFrom, FrameHeader.parse_append hparse]
    dsimp only
    rw [if_pos hplausible, hlen, ← noise_succ]
    by_cases hshort : 16 * (m + 1) ≤ 265
    · rw [List.drop_eq_nil_of_le (by rw [noise_length]; exact hshort)]
      decide
    · obtain ⟨m', hm'⟩ := noise_drop (c := 16) (r := 9) (n := m + 1) (by omega) (by decide)
      rw [hm']
      exact chain_not_ok_of_no_header (by decide) (no_header_inside (by decide) (by decide) m')
  · exact chain_not_ok_of_no_header (by decide) (no_header_inside hpos (by omega) m)

/-- The last cell is waited for. -/
theorem noise_waits {n : Nat} (hn : 0 < n) :
    ∃ off, scanBoundary (noise n) = some (off, false) := by
  obtain ⟨k, rfl⟩ : ∃ k, n = k + 1 := ⟨n - 1, by omega⟩
  have hlast : (noise (k + 1)).drop (16 * k) = noiseCell := by
    rw [noise_concat, ← noise_length, List.drop_left]
  cases hscan : scanBoundary (noise (k + 1)) with
  | none =>
      have hbad := scan_boundary_none hscan (o := 16 * k) (by
        rw [noise_length]
        show 16 * k + 9 ≤ _
        omega)
      rw [hlast] at hbad
      exact absurd hbad (by decide)
  | some candidate =>
      obtain ⟨off, found⟩ := candidate
      cases found with
      | false => exact ⟨off, rfl⟩
      | true => exact absurd (scan_boundary_some hscan).2.1 (noise_not_ok _ off)

end

/-- A direction that has received `n` of `total` cells of noise still waits, with all of them. -/
structure Deafened (total n : Nat) (d : Direction) : Prop where
  carries : d.reasm.Carries 0 (noise total) (16 * n)
  available : d.reasm.available = noise n
  hunting : d.hunting = true

/-- Another cell is only buffered. -/
theorem Deafened.feed {total n : Nat} {d : Direction} (h : Deafened total n d) (hn : n < total) :
    Deafened total (n + 1) (d.feed (0 + BitVec.ofNat 32 (16 * n)) noiseCell 0).1 := by
  have hdata : noiseCell <+: (noise total).drop (16 * n) := by
    obtain ⟨m, hm⟩ := noise_drop hn (by decide : 0 < 16)
    rw [Nat.add_zero] at hm
    rw [hm]
    exact List.prefix_append _ _
  obtain ⟨hgap, havailable, -, hcarries⟩ := h.carries.push hdata 0
  rw [h.available, ← noise_concat] at havailable
  obtain ⟨t, ht⟩ : ∃ t, t = d.withReassembled
      (d.reasm.push (0 + BitVec.ofNat 32 (16 * n)) noiseCell 0) := ⟨_, rfl⟩
  have hreceived : Deafened total (n + 1) t := by
    rw [ht, withReassembled, hgap]
    exact ⟨hcarries, havailable, h.hunting⟩
  have hwaits : t.parseStep = .stop t := by
    obtain ⟨off, hscan⟩ := noise_waits (Nat.succ_pos n)
    have hlength : ¬(noise (n + 1)).length < frameHeaderLen := by
      rw [noise_length]
      show ¬16 * (n + 1) < 9
      omega
    rw [parse_step_hunting hreceived.hunting, resync_step_eq, hreceived.available, if_neg hlength,
      hscan]
  rw [Direction.feed, ← ht, parse_of_stop hwaits]
  exact hreceived

/-- All of the noise is buffered. -/
theorem Deafened.run {total n m : Nat} {d : Direction} (h : Deafened total n d)
    (htotal : n + m = total) : Deafened total total (Lib.run perform d
      (segmentOps (0 + BitVec.ofNat 32 (16 * n)) (List.replicate m (noiseCell, 0)))).1 := by
  induction m generalizing n d with
  | zero =>
      obtain rfl : n = total := htotal
      exact h
  | succ m ih =>
      have hseq : (0 : Seq) + BitVec.ofNat 32 (16 * n) + BitVec.ofNat 32 noiseCell.length =
          0 + BitVec.ofNat 32 (16 * (n + 1)) := by
        rw [BitVec.add_assoc, ← BitVec.ofNat_add]
        rfl
      have hlater := ih (h.feed (by omega)) (by omega)
      rw [List.replicate_succ, segmentOps, hseq]
      exact hlater

omit [HuffmanDecoding] in
/-- No bound holds for every stream that a direction which joined midstream may receive in order. -/
theorem noise_unbounded :
    let _ := noHuffman.toHuffmanDecoding
    ¬∃ bound, ∀ (keepPayloads : Bool) (base : Seq) (segments : List (Bytes × Nat)),
      (∀ segment ∈ segments, segment.1.length ≤ 65535) →
      (Lib.run perform (joinedMidstream keepPayloads) (segmentOps base segments)).1.desynced =
        true →
      (Lib.run perform (joinedMidstream keepPayloads)
        (segmentOps base segments)).1.reasm.available.length ≤ bound := by
  rintro _ ⟨bound, hbound⟩
  have hstart : Deafened (bound + 1) 0 (joinedMidstream false) :=
    ⟨Reassembler.carries_new 0 _, rfl, rfl⟩
  have hend := hstart.run (Nat.zero_add (bound + 1))
  have hsmall : ∀ segment ∈ List.replicate (bound + 1) (noiseCell, 0),
      segment.1.length ≤ 65535 := by
    intro segment hsegment
    rw [List.eq_of_mem_replicate hsegment]
    decide
  have hlost := hend.hunting
  simp only [Direction.hunting, Bool.and_eq_true] at hlost
  have hlength := hbound false (0 + BitVec.ofNat 32 (16 * 0)) _ hsmall hlost.2
  rw [hend.available, noise_length] at hlength
  omega

end Direction

end H2Tap
