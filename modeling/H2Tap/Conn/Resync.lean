import H2Tap.Conn.Carrier
import H2Tap.Conn.Target

/-!
# Hunting for a frame boundary

A direction that has lost its place looks for an offset at which a chain of plausible frames starts.
A real boundary is never refused (`chain_of_allowed`), so the first offset that is not refused lies
at one at the latest, and hunting does not go past it: `resync_never_skips`.
-/

namespace H2Tap

open Lib

/-! ## Frames of the standard types -/

/-- What the standard asks of the length and the stream of a frame of each of its types. -/
inductive FrameHeader.Allowed : FrameHeader → Prop where
  | data {len : Nat} {flags : UInt8} {sid : Nat} :
      sid ≠ 0 → Allowed ⟨len, FrameType.data, flags, sid⟩
  | headers {len : Nat} {flags : UInt8} {sid : Nat} :
      sid ≠ 0 → Allowed ⟨len, FrameType.headers, flags, sid⟩
  | priority {flags : UInt8} {sid : Nat} :
      sid ≠ 0 → Allowed ⟨5, FrameType.priority, flags, sid⟩
  | rstStream {flags : UInt8} {sid : Nat} :
      sid ≠ 0 → Allowed ⟨4, FrameType.rstStream, flags, sid⟩
  | settings {len : Nat} {flags : UInt8} :
      len % 6 = 0 → Allowed ⟨len, FrameType.settings, flags, 0⟩
  | pushPromise {len : Nat} {flags : UInt8} {sid : Nat} :
      sid ≠ 0 → 4 ≤ len → Allowed ⟨len, FrameType.pushPromise, flags, sid⟩
  | ping {flags : UInt8} : Allowed ⟨8, FrameType.ping, flags, 0⟩
  | goaway {len : Nat} {flags : UInt8} :
      8 ≤ len → Allowed ⟨len, FrameType.goaway, flags, 0⟩
  | windowUpdate {flags : UInt8} {sid : Nat} :
      Allowed ⟨4, FrameType.windowUpdate, flags, sid⟩
  | continuation {len : Nat} {flags : UInt8} {sid : Nat} :
      sid ≠ 0 → Allowed ⟨len, FrameType.continuation, flags, sid⟩

/-- The plausibility rules refuse no allowed frame. -/
theorem plausible_of_allowed {h : FrameHeader} (hallowed : h.Allowed)
    (hlen : h.len ≤ maxPlausibleFrame) : frameHeaderPlausible h = true := by
  have hfits : ¬h.len > maxPlausibleFrame := not_lt.mpr hlen
  cases hallowed with
  | data hsid => simpa [frameHeaderPlausible, FrameType.data, hfits] using hsid
  | headers hsid =>
      simpa [frameHeaderPlausible, FrameType.data, FrameType.headers, hfits] using hsid
  | priority hsid =>
      show (_ != 0 && _) = true
      simpa using hsid
  | rstStream hsid =>
      show (_ != 0 && _) = true
      simpa using hsid
  | settings hmod =>
      simpa [frameHeaderPlausible, FrameType.data, FrameType.headers, FrameType.continuation,
        FrameType.priority, FrameType.rstStream, FrameType.settings, hfits] using hmod
  | pushPromise hsid hpromised =>
      simpa [frameHeaderPlausible, FrameType.data, FrameType.headers, FrameType.continuation,
        FrameType.priority, FrameType.rstStream, FrameType.settings, FrameType.pushPromise, hfits]
        using ⟨hsid, hpromised⟩
  | ping => rfl
  | goaway hlast =>
      simpa [frameHeaderPlausible, FrameType.data, FrameType.headers, FrameType.continuation,
        FrameType.priority, FrameType.rstStream, FrameType.settings, FrameType.pushPromise,
        FrameType.ping, FrameType.goaway, hfits] using hlast
  | windowUpdate => rfl
  | continuation hsid =>
      simpa [frameHeaderPlausible, FrameType.data, FrameType.headers, FrameType.continuation, hfits]
        using hsid

/-! ## Chains of frames -/

/-- A chain of allowed frames is never refused, wherever it is cut off. -/
theorem chain_of_allowed {frames : List Frame} {b : Bytes} {minAccept ok left : Nat}
    (hallowed : ∀ f ∈ frames, f.hdr.Allowed ∧ f.hdr.len ≤ maxPlausibleFrame)
    (hb : b <+: framesWire frames) : checkChainFrom minAccept ok b left ≠ .bad := by
  induction left generalizing frames b ok with
  | zero => exact ChainCheck.noConfusion
  | succ left ih =>
      rw [checkChainFrom]
      cases hparse : FrameHeader.parse b with
      | none =>
          dsimp only
          split <;> exact ChainCheck.noConfusion
      | some h =>
          have hlong := FrameHeader.length_of_parse hparse
          cases frames with
          | nil =>
              rw [List.eq_nil_of_prefix_nil hb] at hlong
              exact absurd hlong (by decide)
          | cons f frames =>
              -- the header is that of the first frame
              obtain ⟨hf, hrest⟩ := List.forall_mem_cons.mp hallowed
              have hhead : f.head <+: b := by
                refine List.prefix_of_prefix_length_le ?_ hb (by rw [f.head_length]; exact hlong)
                rw [frames_wire_cons, Frame.wire, List.append_assoc]
                exact List.prefix_append _ _
              obtain ⟨tail, rfl⟩ := hhead
              have hhdr : h = f.hdr := by
                rw [FrameHeader.parse_append f.parse_eq] at hparse
                exact (Option.some.inj hparse).symm
              rw [hhdr]
              dsimp only
              rw [if_pos (plausible_of_allowed hf.1 hf.2)]
              refine ih hrest ?_
              have hdrop := hb.drop f.hdr.totalLen
              rwa [frames_wire_cons, show f.hdr.totalLen = f.wire.length from f.wire_length.symm,
                List.drop_left, f.wire_length] at hdrop

/-! ## The scan -/

namespace Direction

/-- The scan takes the first offset that is not refused. -/
theorem scan_boundary_some {a : Bytes} {off : Nat} {found : Bool}
    (h : scanBoundary a = some (off, found)) : off ≤ a.length - frameHeaderLen ∧
      checkFrameChain (a.drop off) 4 2 = (if found then .ok else .needMore) ∧
      ∀ o < off, checkFrameChain (a.drop o) 4 2 = .bad := by
  obtain ⟨before, o, after, hrange, hfound, hbefore⟩ := List.findSome?_eq_some_iff.mp h
  rw [List.range_eq_range'] at hrange
  obtain ⟨n, hn, rfl, hrest⟩ := List.range'_eq_append_iff.mp hrange
  obtain ⟨m, hm⟩ : ∃ m, a.length - frameHeaderLen + 1 - n = m + 1 :=
    Nat.exists_eq_succ_of_ne_zero fun hzero => by
      rw [hzero] at hrest
      cases hrest
  rw [hm, List.range'_succ, List.cons.injEq, Nat.zero_add, Nat.mul_one] at hrest
  obtain ⟨rfl, -⟩ := hrest
  have hrefused (p : Nat) (hp : p < o) : checkFrameChain (a.drop p) 4 2 = .bad := by
    have hnone := hbefore p (List.mem_range'_1.mpr ⟨Nat.zero_le p, by omega⟩)
    cases hbad : checkFrameChain (a.drop p) 4 2 with
    | bad => rfl
    | ok => rw [hbad] at hnone; cases hnone
    | needMore => rw [hbad] at hnone; cases hnone
  cases hchain : checkFrameChain (a.drop o) 4 2 with
  | bad => rw [hchain] at hfound; cases hfound
  | ok =>
      rw [hchain] at hfound
      cases hfound
      exact ⟨by omega, hchain, hrefused⟩
  | needMore =>
      rw [hchain] at hfound
      cases hfound
      exact ⟨by omega, hchain, hrefused⟩

/-- The scan finds nothing only if every offset is refused. -/
theorem scan_boundary_none {a : Bytes} (h : scanBoundary a = none) {o : Nat}
    (ho : o + frameHeaderLen ≤ a.length) : checkFrameChain (a.drop o) 4 2 = .bad := by
  have hnone := List.findSome?_eq_none_iff.mp h o (List.mem_range.mpr (by omega))
  cases hbad : checkFrameChain (a.drop o) 4 2 with
  | bad => rfl
  | ok => rw [hbad] at hnone; cases hnone
  | needMore => rw [hbad] at hnone; cases hnone

/-! ## A real boundary is not skipped -/

section

variable {stream : Bytes} {frames : List Frame} {b : Nat} {t : Direction}

/-- A real boundary in the buffer is not refused. -/
theorem chain_at_boundary (hbytes : t.reasm.available <+: stream.drop t.reasm.offset)
    (hframes : stream.drop b = framesWire frames)
    (hallowed : ∀ f ∈ frames, f.hdr.Allowed ∧ f.hdr.len ≤ maxPlausibleFrame)
    (hle : t.reasm.offset ≤ b) :
    checkFrameChain (t.reasm.available.drop (b - t.reasm.offset)) 4 2 ≠ .bad := by
  have hsuffix : t.reasm.available.drop (b - t.reasm.offset) <+: framesWire frames := by
    have hdrop := hbytes.drop (b - t.reasm.offset)
    rwa [List.drop_drop, Nat.add_sub_of_le hle, hframes] at hdrop
  exact chain_of_allowed hallowed hsuffix

/-- Hunting ends at a real boundary at the latest. -/
theorem resync_stays_before (hbytes : t.reasm.available <+: stream.drop t.reasm.offset)
    (hframes : stream.drop b = framesWire frames)
    (hallowed : ∀ f ∈ frames, f.hdr.Allowed ∧ f.hdr.len ≤ maxPlausibleFrame)
    (hle : t.reasm.offset ≤ b) : t.tryResync.1.reasm.offset ≤ b := by
  have hchain := chain_at_boundary hbytes hframes hallowed hle
  have hconsumed (n : Nat) : (t.reasm.consume n).offset ≤ t.reasm.offset + n := by
    rw [Reassembler.offset, Reassembler.offset, Reassembler.bufOff_consume]
    omega
  unfold tryResync
  dsimp only
  split
  · exact hle
  next hlong =>
    cases hscan : scanBoundary t.reasm.available with
    | none =>
        dsimp only
        split
        · -- the window is longer than a header, so the boundary lies in what is kept
          have hwindow : frameHeaderLen ≤ resyncWindow := by decide
          have hlate : t.reasm.available.length < b - t.reasm.offset + frameHeaderLen := by
            by_contra hearly
            exact hchain (scan_boundary_none hscan (by omega))
          have hmoved := hconsumed (t.reasm.available.length - resyncWindow)
          dsimp only
          omega
        · exact hle
    | some candidate =>
        obtain ⟨off, found⟩ := candidate
        obtain ⟨hoff, -, hbefore⟩ := scan_boundary_some hscan
        have hearly : off ≤ b - t.reasm.offset := by
          by_contra hlate
          exact hchain (hbefore _ (by omega))
        cases found with
        | false => exact hle
        | true =>
            have hmoved := hconsumed off
            dsimp only
            omega

end

end Direction

namespace Direction

variable [HuffmanDecoding]

/-! ## The turns of a hunt -/

/-- The direction hunts for a frame boundary: its next turn is `try_resync`. -/
def hunting (d : Direction) : Bool := d.discard == 0 && d.pendingStartSeq.isNone && d.desynced

theorem parse_step_hunting {t : Direction} (h : t.hunting = true) : t.parseStep = t.resyncStep := by
  simp only [hunting, Bool.and_eq_true, beq_iff_eq, Option.isNone_iff_eq_none] at h
  obtain ⟨⟨hdiscard, hpending⟩, hdesynced⟩ := h
  rw [parseStep, if_neg (by omega), hpending]
  simp only [hdesynced, if_true]

omit [HuffmanDecoding] in
theorem resync_step_next (t : Direction) : t.resyncStep.next = t.tryResync.1 := by
  rw [resyncStep]
  split <;> next hresync => rw [hresync]; rfl

/-- A direction that reads the stream, and that has not gone past `b` if it has hunted so far. -/
def UpTo (stream : Bytes) (b : Nat) (past : List Direction) (t : Direction) : Prop :=
  t.reasm.available <+: stream.drop t.reasm.offset ∧
    ((∀ s ∈ past, s.hunting = true) → t.reasm.offset ≤ b)

section

variable {base : Seq} {stream : Bytes} {C : Bytes → Prop} {P : Nat → Reassembler → Prop}
  {frames : List Frame} {b : Nat}

/-- A turn of a direction that hunts does not go past the boundary. -/
theorem UpTo.next {past : List Direction} {t : Direction} (h : UpTo stream b past t)
    (hframes : stream.drop b = framesWire frames)
    (hallowed : ∀ f ∈ frames, f.hdr.Allowed ∧ f.hdr.len ≤ maxPlausibleFrame)
    (hpast : ∀ s ∈ past ++ [t], s.hunting = true) : t.parseStep.next.reasm.offset ≤ b := by
  have hbefore := h.2 fun s hs => hpast s (List.mem_append_left _ hs)
  have hhunt := hpast t (List.mem_append_right _ (List.mem_singleton_self t))
  rw [parse_step_hunting hhunt, resync_step_next]
  exact resync_stays_before h.1 hframes hallowed hbefore

/-- The boundary stays ahead of every turn of a hunt, while the stream arrives. -/
theorem carried_history (hcarrier : Reassembler.Carrier base stream C P)
    (hframes : stream.drop b = framesWire frames)
    (hallowed : ∀ f ∈ frames, f.hdr.Allowed ∧ f.hdr.len ≤ maxPlausibleFrame) {a : Nat}
    {d : Direction} {past : List Direction} (hd : P a d.reasm)
    (hbefore : (∀ s ∈ past, s.hunting = true) → d.reasm.offset ≤ b)
    {segments : List (Bytes × Nat)} (hsegments : segmentBytes segments <+: stream.drop a)
    (hC : ∀ segment ∈ segments, C segment.1) :
    AtEach (UpTo stream b) past (d.runTurns (segmentOps (base + BitVec.ofNat 32 a) segments)) := by
  induction segments generalizing a d past with
  | nil => trivial
  | cons segment segments ih =>
      obtain ⟨hfirst, hlater⟩ := List.forall_mem_cons.mp hC
      have hbytes : segmentBytes (segment :: segments) = segment.1 ++ segmentBytes segments := rfl
      rw [hbytes] at hsegments
      obtain ⟨hgap, hoffset, hpushed⟩ := hcarrier.push hd hfirst
        ((List.prefix_append _ _).trans hsegments) segment.2
      have hreceived : d.withReassembled (d.reasm.push (base + BitVec.ofNat 32 a) segment.1
          segment.2) = { d with
            reasm := (d.reasm.push (base + BitVec.ofNat 32 a) segment.1 segment.2).1 } := by
        rw [withReassembled, hgap]
        rfl
      -- what every turn of this segment's loop keeps
      let kept (past : List Direction) (t : Direction) : Prop :=
        P (a + segment.1.length) t.reasm ∧ ((∀ s ∈ past, s.hunting = true) → t.reasm.offset ≤ b)
      have hnext (past : List Direction) (t : Direction) (h : kept past t) :
          kept (past ++ [t]) t.parseStep.next := by
        refine ⟨?_, UpTo.next ⟨hcarrier.slice h.1, h.2⟩ hframes hallowed⟩
        rcases reasm_parse_step t with hsame | ⟨n, hconsumed⟩
        · rw [hsame]
          exact h.1
        · rw [hconsumed]
          exact hcarrier.consume h.1 n
      have hfirst : kept past (d.withReassembled
          (d.reasm.push (base + BitVec.ofNat 32 a) segment.1 segment.2)) := by
        rw [hreceived]
        exact ⟨hpushed, fun hpast => hoffset.le.trans (hbefore hpast)⟩
      obtain ⟨hturns, hcarried, hplace⟩ : AtEach kept past _ ∧ kept _ _ :=
        parse_history
          (fun past t t' h hturn => by have hkept := hnext past t h; rwa [hturn] at hkept)
          (fun past t t' frame h hturn => by have hkept := hnext past t h; rwa [hturn] at hkept)
          hfirst
      have hrest : segmentBytes segments <+: stream.drop (a + segment.1.length) := by
        have hdrop := hsegments.drop segment.1.length
        rwa [List.drop_left, List.drop_drop] at hdrop
      have hseq : base + BitVec.ofNat 32 a + BitVec.ofNat 32 segment.1.length =
          base + BitVec.ofNat 32 (a + segment.1.length) := by
        rw [BitVec.ofNat_add, BitVec.add_assoc]
      rw [segmentOps, runTurns, hseq]
      exact at_each_append (hturns.imp fun past t h => ⟨hcarrier.slice h.1, h.2⟩)
        (ih hcarried hplace hrest hlater)

end

/-- Hunting never goes past a real frame boundary. Let a stream arrive in order of which allowed
frames start at `b`, with any number of its bytes delivered already, and possibly slices of it held.
Whenever `try_resync` runs at or before `b`, it stays there, so what it adopts or drops ends at `b`
at the latest; and as long as a direction does nothing but hunt it is not past `b`. -/
theorem resync_never_skips {base : Seq} {stream : Bytes} {k b : Nat} {frames : List Frame}
    {d : Direction} {segments : List (Bytes × Nat)}
    (hcarries : d.reasm.Carries base stream k ∨
      d.reasm.Collected base stream k ∧ d.reasm.available <+: stream.drop d.reasm.offset ∧
        ∀ segment ∈ segments, segment.1.length < 2 ^ 30)
    (hframes : stream.drop b = framesWire frames)
    (hallowed : ∀ f ∈ frames, f.hdr.Allowed ∧ f.hdr.len ≤ maxPlausibleFrame)
    (hle : d.reasm.offset ≤ b) (hsegments : segmentBytes segments <+: stream.drop k) :
    let turns := d.runTurns (segmentOps (base + BitVec.ofNat 32 k) segments)
    (∀ t ∈ turns, t.reasm.offset ≤ b → t.tryResync.1.reasm.offset ≤ b) ∧
      ∀ before t after, turns = before ++ t :: after → (∀ s ∈ before, s.hunting = true) →
        t.reasm.offset ≤ b := by
  intro turns
  have hhistory : AtEach (UpTo stream b) [] turns := by
    rcases hcarries with hcarries | ⟨hcollected, hbytes, hlength⟩
    · exact carried_history (Reassembler.carrier_in_order base stream) hframes hallowed hcarries
        (fun _ => hle) hsegments fun _ _ => trivial
    · exact carried_history (Reassembler.carrier_held base stream) hframes hallowed
        (Reassembler.carries_held_of_collected hcollected hbytes) (fun _ => hle) hsegments hlength
  constructor
  · intro t ht hplace
    obtain ⟨before, after, hsplit⟩ := List.append_of_mem ht
    rw [hsplit] at hhistory
    exact resync_stays_before hhistory.split.1 hframes hallowed hplace
  · intro before t after hsplit hunted
    rw [hsplit] at hhistory
    exact hhistory.split.2 hunted

omit [HuffmanDecoding] in
/-- A direction that joins three bytes before a frame. -/
theorem resync_never_skips_joined :
    let _ := noHuffman.toHuffmanDecoding
    let stream := [0xff, 0xff, 0xff] ++ framesWire [sampleDataFrame, sampleDataFrame]
    let turns := (joinedMidstream false).runTurns
      (segmentOps (7 + BitVec.ofNat 32 0) [(stream.take 8, 0), (stream.drop 8, 1)])
    (∀ t ∈ turns, t.reasm.offset ≤ 3 → t.tryResync.1.reasm.offset ≤ 3) ∧
      ∀ before t after, turns = before ++ t :: after → (∀ s ∈ before, s.hunting = true) →
        t.reasm.offset ≤ 3 := by
  intro _ stream turns
  have hallowed : ∀ f ∈ [sampleDataFrame, sampleDataFrame],
      f.hdr.Allowed ∧ f.hdr.len ≤ maxPlausibleFrame := by
    have hone : sampleDataFrame.hdr.Allowed ∧ sampleDataFrame.hdr.len ≤ maxPlausibleFrame :=
      ⟨.data (by decide), by decide⟩
    exact List.forall_mem_cons.mpr ⟨hone, List.forall_mem_singleton.mpr hone⟩
  exact resync_never_skips (Or.inl (Reassembler.carries_new 7 stream)) rfl hallowed (Nat.zero_le 3)
    (by decide)

end Direction

end H2Tap
