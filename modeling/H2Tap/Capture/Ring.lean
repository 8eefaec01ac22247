import H2Tap.Lib.LongestSuffix
import H2Tap.Packet

/-!
# The ring of recent packets

`Ring` of `capture.rs`: the packets with which a capture starts slightly in the past. A packet is
dropped when it is too old or when there are too many bytes. `holds_longest_push` says that the ring
holds the longest suffix of the packets seen that is within both limits.
-/

namespace H2Tap

open Lib

/-- How many bytes some packets have. -/
def packetBytes (packets : List Packet) : Nat := (packets.map fun p => p.2.length).sum

@[simp] theorem packet_bytes_nil : packetBytes [] = 0 := rfl

@[simp] theorem packet_bytes_cons (p : Packet) (packets : List Packet) :
    packetBytes (p :: packets) = p.2.length + packetBytes packets := by
  simp [packetBytes]

@[simp] theorem packet_bytes_append (packets later : List Packet) :
    packetBytes (packets ++ later) = packetBytes packets + packetBytes later := by
  simp [packetBytes]

/-- `Ring`. -/
structure Ring where
  q : List Packet
  bytes : Nat
  limit : Nat
  maxAgeUs : Nat

namespace Ring

/-- `Ring::new`. -/
def new (limit maxAgeSecs : Nat) : Ring where
  q := []
  bytes := 0
  limit := limit
  maxAgeUs := maxAgeSecs * 1000000

/-- The first loop of `push`: drop the packets before `cutoff`. -/
def dropAged (cutoff : Nat) : List Packet → Nat → List Packet × Nat
  | [], bytes => ([], bytes)
  | p :: q, bytes =>
      if p.1 ≥ cutoff then (p :: q, bytes) else dropAged cutoff q (bytes - p.2.length)

/-- The second loop of `push`: drop packets while there are more than `limit` bytes. -/
def dropExcess (limit : Nat) : List Packet → Nat → List Packet × Nat
  | [], bytes => ([], bytes)
  | p :: q, bytes =>
      if bytes > limit then dropExcess limit q (bytes - p.2.length) else (p :: q, bytes)

/-- `Ring::push`. -/
def push (r : Ring) (tsUs : Nat) (data : Bytes) : Ring :=
  let (q, bytes) := dropAged (tsUs - r.maxAgeUs) (r.q ++ [(tsUs, data)]) (r.bytes + data.length)
  let (q, bytes) := dropExcess r.limit q bytes
  { r with q := q, bytes := bytes }

/-- `Ring::oldest_us`. -/
def oldestUs (r : Ring) : Option Nat := r.q.head?.map Prod.fst

/-! ## What the ring holds -/

/-- What may be kept of the packets once the newest one is from `newest`. -/
def Retained (limit maxAgeUs newest : Nat) (packets : List Packet) : Prop :=
  (∀ p ∈ packets, newest - p.1 ≤ maxAgeUs) ∧ packetBytes packets ≤ limit

/-- The timestamp of the newest packet. -/
def newestUs (packets : List Packet) : Nat := (packets.getLast?.map Prod.fst).getD 0

/-- The ring holds as much as it may of the packets seen, and counts its bytes. -/
structure HoldsLongest (r : Ring) (seen : List Packet) : Prop where
  longest : IsLongestSuffix (Retained r.limit r.maxAgeUs (newestUs seen)) r.q seen
  bytes : r.bytes = packetBytes r.q

/-- The first loop leaves the packets that are not too old, if the packets are in order. -/
theorem drop_aged_spec (cutoff : Nat) {q : List Packet}
    (hsorted : (q.map Prod.fst).Pairwise (· ≤ ·)) :
    IsLongestSuffix (fun s => ∀ p ∈ s, cutoff ≤ p.1) (dropAged cutoff q (packetBytes q)).1 q ∧
      (dropAged cutoff q (packetBytes q)).2 =
        packetBytes (dropAged cutoff q (packetBytes q)).1 := by
  induction q with
  | nil => exact ⟨is_longest_suffix_self (by simp [dropAged]), rfl⟩
  | cons p q ih =>
      rw [List.map_cons, List.pairwise_cons] at hsorted
      by_cases hp : p.1 ≥ cutoff
      · rw [dropAged, if_pos hp]
        refine ⟨is_longest_suffix_self ?_, rfl⟩
        intro other hother
        rcases List.mem_cons.mp hother with rfl | hother
        · exact hp
        · exact le_trans hp (hsorted.1 _ (List.mem_map_of_mem hother))
      · obtain ⟨hlongest, hbytes⟩ := ih hsorted.2
        rw [dropAged, if_neg hp, packet_bytes_cons, Nat.add_sub_cancel_left]
        exact ⟨is_longest_suffix_cons (fun hall => hp (hall p List.mem_cons_self)) hlongest, hbytes⟩

/-- The second loop leaves the packets that fit. -/
theorem drop_excess_spec (limit : Nat) (q : List Packet) :
    IsLongestSuffix (fun s => packetBytes s ≤ limit) (dropExcess limit q (packetBytes q)).1 q ∧
      (dropExcess limit q (packetBytes q)).2 =
        packetBytes (dropExcess limit q (packetBytes q)).1 := by
  induction q with
  | nil => exact ⟨is_longest_suffix_self (Nat.zero_le _), rfl⟩
  | cons p q ih =>
      by_cases hp : packetBytes (p :: q) > limit
      · rw [dropExcess, if_pos hp, packet_bytes_cons, Nat.add_sub_cancel_left]
        exact ⟨is_longest_suffix_cons (not_le.mpr hp) ih.1, ih.2⟩
      · rw [dropExcess, if_neg hp]
        exact ⟨is_longest_suffix_self (Nat.le_of_not_lt hp), rfl⟩

theorem holds_longest_new (limit maxAgeSecs : Nat) : (new limit maxAgeSecs).HoldsLongest [] :=
  ⟨is_longest_suffix_self ⟨by simp [new], Nat.zero_le _⟩, rfl⟩

theorem newest_us_concat (seen : List Packet) (p : Packet) : newestUs (seen ++ [p]) = p.1 := by
  simp [newestUs]

/-- A packet that is not older than the others. -/
theorem holds_longest_push {r : Ring} {seen : List Packet} (h : r.HoldsLongest seen) {tsUs : Nat}
    (data : Bytes) (hsorted : ((seen ++ [(tsUs, data)]).map Prod.fst).Pairwise (· ≤ ·)) :
    (r.push tsUs data).HoldsLongest (seen ++ [(tsUs, data)]) := by
  have hlast : newestUs seen ≤ tsUs := by
    rw [List.map_append, List.pairwise_append] at hsorted
    rcases hseen : seen.getLast? with _ | p
    · simp [newestUs, hseen]
    · have hp := List.mem_map_of_mem (f := Prod.fst) (List.mem_of_getLast? hseen)
      simpa [newestUs, hseen] using hsorted.2.2 _ hp tsUs (by simp)
  have hq : ((r.q ++ [(tsUs, data)]).map Prod.fst).Pairwise (· ≤ ·) := by
    obtain ⟨front, hfront⟩ := h.longest.suffix
    refine hsorted.sublist (List.Sublist.map _ ?_)
    rw [← hfront, List.append_assoc]
    exact List.sublist_append_right _ _
  have hbytes : r.bytes + data.length = packetBytes (r.q ++ [(tsUs, data)]) := by
    rw [h.bytes]
    simp
  obtain ⟨haged, hagedBytes⟩ := drop_aged_spec (tsUs - r.maxAgeUs) hq
  obtain ⟨hfits, hfitsBytes⟩ := drop_excess_spec r.limit
    (dropAged (tsUs - r.maxAgeUs) (r.q ++ [(tsUs, data)])
      (packetBytes (r.q ++ [(tsUs, data)]))).1
  have hboth := haged.trans (fun hsub hall p hp => hall p (hsub.subset hp)) hfits
  simp only [push, hbytes, hagedBytes]
  refine ⟨?_, hfitsBytes⟩
  simp only [newest_us_concat]
  refine h.longest.concat (fun s hs => ?_) ?_
  · -- what is kept now would have been kept before
    refine ⟨fun p hp => ?_, le_trans ?_ hs.2⟩
    · have hage := hs.1 p (List.mem_append_left _ hp)
      omega
    · simp
  · have hiff : ∀ s : List Packet, Retained r.limit r.maxAgeUs tsUs s ↔
        (∀ p ∈ s, tsUs - r.maxAgeUs ≤ p.1) ∧ packetBytes s ≤ r.limit := by
      intro s
      refine and_congr_left' (forall_congr' fun p => imp_congr_right fun _ => ?_)
      omega
    exact ⟨hboth.suffix, (hiff _).mpr hboth.holds,
      fun s hsub hs => hboth.longest s hsub ((hiff s).mp hs)⟩

end Ring

end H2Tap
