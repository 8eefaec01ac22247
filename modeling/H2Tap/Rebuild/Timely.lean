import H2Tap.Rebuild.Intact

/-!
# Captures whose times never go back

In such a capture the times of a connection are in order (`Timely`): it opens, the frames of each
direction are written, and its last packet comes, all before now. So every frame is in time
(`in_time_of_monotone`), whatever the connections do to each other.
-/

namespace H2Tap

open Lib

/-- What was written has times from `first` to `last` that never go back. -/
structure WrittenBetween (first last : Nat) (out : List (Nat × Normalized)) : Prop where
  sorted : out.Pairwise fun a b => a.1 ≤ b.1
  within : ∀ item ∈ out, first ≤ item.1 ∧ item.1 ≤ last

/-- More is written at the end. -/
theorem WrittenBetween.write {first last now : Nat} {out : List (Nat × Normalized)}
    (h : WrittenBetween first last out) (hfirst : first ≤ now) (hlast : last ≤ now)
    (items : List Normalized) :
    WrittenBetween first now (out ++ items.map fun item => (now, item)) := by
  obtain ⟨hsorted, hwithin⟩ := h
  refine ⟨List.pairwise_append.mpr ⟨hsorted, ?_, ?_⟩, fun item hitem => ?_⟩
  · exact List.pairwise_map.mpr (List.pairwise_of_forall fun _ _ => le_refl now)
  · intro a ha b hb
    obtain ⟨item, -, rfl⟩ := List.mem_map.mp hb
    exact (hwithin a ha).2.trans hlast
  · rcases List.mem_append.mp hitem with hitem | hitem
    · exact ⟨(hwithin item hitem).1, (hwithin item hitem).2.trans hlast⟩
    · obtain ⟨item, -, rfl⟩ := List.mem_map.mp hitem
      exact ⟨hfirst, le_refl now⟩

theorem WrittenBetween.mono {first last now : Nat} {out : List (Nat × Normalized)}
    (h : WrittenBetween first last out) (hlast : last ≤ now) : WrittenBetween first now out :=
  ⟨h.sorted, fun item hitem => ⟨(h.within item hitem).1, (h.within item hitem).2.trans hlast⟩⟩

namespace ConnState

/-- The times of a connection are in order and not later than now. -/
structure Timely (now : Nat) (cs : ConnState) : Prop where
  opened : cs.firstTs ≤ cs.lastTs
  past : cs.lastTs ≤ now
  written : ∀ isC2s, WrittenBetween cs.firstTs cs.lastTs (cs.dir isC2s).out

theorem Timely.mono {now later : Nat} {cs : ConnState} (h : cs.Timely now) (hlater : now ≤ later) :
    cs.Timely later :=
  ⟨h.opened, h.past.trans hlater, h.written⟩

/-- The frames of a timely connection are in time. -/
theorem Timely.in_time {now : Nat} {cs : ConnState} (h : cs.Timely now) (isC2s : Bool) :
    cs.InTime isC2s := by
  obtain ⟨hsorted, hwithin⟩ := h.written isC2s
  have hframes : ∀ f ∈ (cs.dir isC2s).frames, cs.firstTs ≤ f.1 ∧ f.1 ≤ cs.lastTs := by
    intro f hf
    obtain ⟨item, hitem, hf⟩ := List.mem_flatMap.mp hf
    obtain ⟨bytes, -, rfl⟩ := List.mem_map.mp hf
    exact hwithin item hitem
  have hframesSorted : (cs.dir isC2s).frames.Pairwise fun f g => f.1 ≤ g.1 := by
    refine List.pairwise_flatMap.mpr ⟨fun item _ => ?_, hsorted.imp fun hle f hf g hg => ?_⟩
    · exact List.pairwise_map.mpr (List.pairwise_of_forall fun _ _ => le_refl _)
    · obtain ⟨_, -, rfl⟩ := List.mem_map.mp hf
      obtain ⟨_, -, rfl⟩ := List.mem_map.mp hg
      exact hle
  refine in_time_of_sorted ?_ ?_
  · simp only [stream]
    split
    · exact List.pairwise_cons.mpr ⟨fun f hf => (hframes f hf).1, hframesSorted⟩
    · exact hframesSorted
  · intro f hf
    have hlast := le_max_left cs.lastTs cs.firstTs
    simp only [stream] at hf
    split at hf
    · rcases List.mem_cons.mp hf with rfl | hf
      · exact ⟨le_refl _, le_max_right _ _⟩
      · exact ⟨(hframes f hf).1, (hframes f hf).2.trans hlast⟩
    · exact ⟨(hframes f hf).1, (hframes f hf).2.trans hlast⟩

end ConnState

namespace Replay

variable [HuffmanDecoding] (seeds : Table (String × String) Seed)

omit [HuffmanDecoding] in
/-- A packet that is not older than the connections finds, opens and touches a timely one. -/
theorem timely_touched {r : Replay} {now ts : Nat}
    (h : ∀ k cs, r.conns.lookup k = some cs → cs.Timely now) (hts : now ≤ ts) (seg : EthSegment) :
    (r.touched seeds seg ts).Timely ts ∧ (r.touched seeds seg ts).lastTs = ts := by
  have hfound : (r.found seg ts).Timely ts := by
    rcases found_cases r seg ts with ⟨hopened, -⟩ | ⟨-, hlookup⟩
    · rw [hopened]
      refine ⟨le_refl _, le_refl _, fun isC2s => ?_⟩
      rw [(ConnState.opened_dir seg ts isC2s).2]
      exact ⟨List.Pairwise.nil, by simp⟩
    · exact (h _ _ hlookup).mono hts
  obtain ⟨hopened, hpast, hwritten⟩ := hfound
  have hfirst : (r.touched seeds seg ts).firstTs = (r.found seg ts).firstTs := by
    rw [touched, ConnState.touch_eq, ConnState.set_dir_first_ts]
  have hlast : (r.touched seeds seg ts).lastTs = ts := by
    rw [touched, ConnState.touch_eq, ConnState.set_dir_last_ts]
  refine ⟨⟨?_, le_of_eq hlast, fun isC2s => ?_⟩, hlast⟩
  · rw [hfirst, hlast]
    exact hopened.trans hpast
  · rw [hfirst, hlast]
    have hout : ((r.touched seeds seg ts).dir isC2s).out = ((r.found seg ts).dir isC2s).out := by
      rcases Bool.eq_or_eq_not isC2s (r.sentByClient seg ts) with rfl | rfl
      · rw [touched, ConnState.touch_dir, ConnState.touched_dir_out]
      · rw [touched, ConnState.touch_dir_not]
    rw [hout]
    exact (hwritten isC2s).mono hpast

/-- A packet that is not older than the connections keeps them timely. -/
theorem timely_step {r : Replay} {now : Nat} {packet : Packet}
    (h : ∀ k cs, r.conns.lookup k = some cs → cs.Timely now) (hts : now ≤ packet.1) :
    ∀ k cs, (r.step seeds packet).1.conns.lookup k = some cs → cs.Timely packet.1 := by
  intro k cs hlookup
  rcases lookup_step_cases seeds hlookup with hbefore | ⟨seg, -, -, hcs⟩
  · exact (h k cs hbefore).mono hts
  obtain ⟨htouched, hlast⟩ := timely_touched seeds (r := r.countPacket) h hts seg
  rcases hcs with rfl | rfl
  · exact htouched
  obtain ⟨hopened, hpast, hwritten⟩ := htouched
  rw [absorbed]
  refine ⟨?_, ?_, fun isC2s => ?_⟩
  · rw [ConnState.absorb_first_ts, ConnState.absorb_last_ts]
    exact hopened
  · rw [ConnState.absorb_last_ts]
    exact hpast
  · rw [ConnState.absorb_first_ts, ConnState.absorb_last_ts]
    rcases Bool.eq_or_eq_not isC2s (r.countPacket.sentByClient seg packet.1) with rfl | rfl
    · rw [ConnState.absorb_dir, hlast]
      exact (hwritten _).write (hopened.trans hpast) hpast _
    · rw [ConnState.absorb_dir_not]
      exact hwritten _

/-- Along a capture whose times never go back, all connections are timely. -/
theorem timely_run {r : Replay} {now : Nat} {packets : List Packet}
    (h : ∀ k cs, r.conns.lookup k = some cs → cs.Timely now)
    (hsorted : ((now, []) :: packets).Pairwise fun p q : Packet => p.1 ≤ q.1) :
    ∃ last, ∀ k cs, (run (step seeds) r packets).1.conns.lookup k = some cs → cs.Timely last := by
  induction packets generalizing r now with
  | nil => exact ⟨now, h⟩
  | cons packet packets ih =>
      obtain ⟨hnow, hrest⟩ := List.pairwise_cons.mp hsorted
      obtain ⟨hpacket, hpackets⟩ := List.pairwise_cons.mp hrest
      exact ih (timely_step seeds h (hnow packet List.mem_cons_self))
        (List.pairwise_cons.mpr ⟨hpacket, hpackets⟩)

/-- In a capture whose times never go back, every frame is in time. -/
theorem in_time_of_monotone {packets : List Packet}
    (hsorted : packets.Pairwise fun p q => p.1 ≤ q.1) {k : Key} {cs : ConnState}
    (hlookup : (run (step seeds) start packets).1.conns.lookup k = some cs) (isC2s : Bool) :
    cs.InTime isC2s := by
  have hstart : ∀ k cs, start.conns.lookup k = some cs → cs.Timely 0 := by
    intro k cs h
    simp [start] at h
  obtain ⟨last, htimely⟩ := timely_run seeds hstart
    (List.pairwise_cons.mpr ⟨fun _ _ => Nat.zero_le _, hsorted⟩)
  exact (htimely k cs hlookup).in_time isC2s

end Replay

end H2Tap
