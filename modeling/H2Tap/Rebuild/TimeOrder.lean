import H2Tap.Rebuild.Streams

/-!
# The packets of a direction in file order

`write_pcap` sorts by time first. The data of a direction comes out frame by frame, the frames
sorted by their times (`ordered_data_payload`). The SYN comes first and the FIN last exactly if no
frame is older than the first packet of the connection or newer than its last one
(`syn_to_fin_iff`).
-/

namespace H2Tap

open Lib

namespace OutPkt

theorem sort_key_lt_iff (p q : OutPkt) : p.sortKey < q.sortKey ↔
    p.ts < q.ts ∨ p.ts = q.ts ∧ (p.phase < q.phase ∨ p.phase = q.phase ∧
      (p.conn < q.conn ∨ p.conn = q.conn ∧ p.seqInConn < q.seqInConn)) := by
  simp only [sortKey, Prod.Lex.toLex_lt_toLex]

theorem sort_key_le_iff (p q : OutPkt) : p.sortKey ≤ q.sortKey ↔
    p.ts < q.ts ∨ p.ts = q.ts ∧ (p.phase < q.phase ∨ p.phase = q.phase ∧
      (p.conn < q.conn ∨ p.conn = q.conn ∧ p.seqInConn ≤ q.seqInConn)) := by
  simp only [sortKey, Prod.Lex.toLex_le_toLex]

/-- A packet is numbered where it stands. -/
theorem exists_mem_number (n : Nat) {pkts : List OutPkt} {q : OutPkt} (h : q ∈ pkts) :
    ∃ i, { q with seqInConn := i } ∈ number n pkts := by
  induction pkts generalizing n with
  | nil => cases h
  | cons p pkts ih =>
      rw [number_cons]
      rcases List.mem_cons.mp h with rfl | h
      · exact ⟨n, List.mem_cons_self⟩
      · obtain ⟨i, hi⟩ := ih (n + 1) h
        exact ⟨i, List.mem_cons_of_mem _ hi⟩

end OutPkt

/-! ## The pieces of a frame -/

theorem mem_chunks_length {mss : Nat} {bytes chunk : Bytes} (h : chunk ∈ chunks mss bytes) :
    chunk.length ≤ min (max mss 1) bytes.length := by
  induction bytes using chunks.induct mss with
  | case1 =>
      rw [chunks] at h
      simp at h
  | case2 bytes hne ih =>
      rw [chunks, dif_neg hne] at h
      rcases List.mem_cons.mp h with rfl | h
      · rw [List.length_take]
      · have hrest := ih h
        rw [List.length_drop] at hrest
        omega

/-- The first piece is the longest one. -/
theorem take_mem_chunks (mss : Nat) {bytes : Bytes} (h : bytes ≠ []) :
    bytes.take (max mss 1) ∈ chunks mss bytes := by
  rw [chunks, dif_neg h]
  exact List.mem_cons_self

namespace ConnState

/-! ## Data -/

/-- Frames sorted by time. Frames of one time stay in their order. -/
def inTimeOrder (frames : List (Nat × Bytes)) : List (Nat × Bytes) :=
  frames.mergeSort fun f g => decide (f.1 ≤ g.1)

variable (mss ci : Nat) (isC2s : Bool)

/-- Every frame next to its segments, numbered from `n` on. -/
def numberedFrames (n : Nat) : List (Nat × Bytes) → List ((Nat × Bytes) × List OutPkt)
  | [] => []
  | f :: frames => (f, OutPkt.number n (frameSegments mss ci isC2s f)) ::
      numberedFrames (n + (frameSegments mss ci isC2s f).length) frames

theorem numbered_frames_fst (n : Nat) (frames : List (Nat × Bytes)) :
    (numberedFrames mss ci isC2s n frames).map Prod.fst = frames := by
  induction frames generalizing n with
  | nil => rfl
  | cons f frames ih => rw [numberedFrames, List.map_cons, ih]

theorem numbered_frames_flatten (n : Nat) (frames : List (Nat × Bytes)) :
    ((numberedFrames mss ci isC2s n frames).map Prod.snd).flatten =
      OutPkt.number n (frames.flatMap (frameSegments mss ci isC2s)) := by
  induction frames generalizing n with
  | nil => rfl
  | cons f frames ih =>
      rw [numberedFrames, List.map_cons, List.flatten_cons, ih, List.flatMap_cons,
        OutPkt.number_append]

variable {mss ci isC2s}

theorem mem_numbered_frames {n : Nat} {frames : List (Nat × Bytes)}
    {x : (Nat × Bytes) × List OutPkt} (h : x ∈ numberedFrames mss ci isC2s n frames) :
    ∃ m, n ≤ m ∧ x.2 = OutPkt.number m (frameSegments mss ci isC2s x.1) := by
  induction frames generalizing n with
  | nil => cases h
  | cons f frames ih =>
      rcases List.mem_cons.mp h with rfl | h
      · exact ⟨n, le_refl n, rfl⟩
      · obtain ⟨m, hm, heq⟩ := ih h
        exact ⟨m, by omega, heq⟩

/-- The segments of a frame, once they are numbered. -/
theorem mem_number_segments {m : Nat} {f : Nat × Bytes} {p : OutPkt}
    (hp : p ∈ OutPkt.number m (frameSegments mss ci isC2s f)) :
    (p.ts = f.1 ∧ p.phase = 1 ∧ p.conn = ci ∧ p.flags = TcpFlags.psh ||| TcpFlags.ack) ∧
      m ≤ p.seqInConn ∧ p.seqInConn < m + (frameSegments mss ci isC2s f).length := by
  obtain ⟨q, hq, heq, hle, hlt⟩ := OutPkt.mem_number hp
  obtain ⟨chunk, -, rfl⟩ := List.mem_map.mp hq
  rw [heq]
  exact ⟨⟨rfl, rfl, rfl, rfl⟩, hle, hlt⟩

/-- Later frames have later numbers. -/
theorem numbered_frames_pairwise (n : Nat) (frames : List (Nat × Bytes)) :
    (numberedFrames mss ci isC2s n frames).Pairwise fun x y =>
      ∀ p ∈ x.2, ∀ q ∈ y.2, p.seqInConn < q.seqInConn := by
  induction frames generalizing n with
  | nil => exact List.Pairwise.nil
  | cons f frames ih =>
      refine List.pairwise_cons.mpr ⟨fun y hy p hp q hq => ?_, ih _⟩
      obtain ⟨m, hm, heq⟩ := mem_numbered_frames hy
      obtain ⟨-, -, hlt⟩ := mem_number_segments hp
      obtain ⟨-, hle, -⟩ := mem_number_segments (heq ▸ hq)
      omega

variable (mss ci isC2s) in
/-- The data packets of a direction in file order. -/
def orderedData (n : Nat) (frames : List (Nat × Bytes)) : List OutPkt :=
  (((numberedFrames mss ci isC2s n frames).mergeSort
    fun x y => decide (x.1.1 ≤ y.1.1)).map Prod.snd).flatten

theorem ordered_data_perm (n : Nat) (frames : List (Nat × Bytes)) :
    (orderedData mss ci isC2s n frames).Perm
      (OutPkt.number n (frames.flatMap (frameSegments mss ci isC2s))) := by
  rw [← numbered_frames_flatten]
  exact ((List.mergeSort_perm _ _).map Prod.snd).flatten

/-- They are sorted. -/
theorem ordered_data_pairwise (n : Nat) (frames : List (Nat × Bytes)) :
    (orderedData mss ci isC2s n frames).Pairwise fun p q => p.sortKey < q.sortKey := by
  let key : (Nat × Bytes) × List OutPkt → Nat := fun x => x.1.1
  have hblock : ∀ x ∈ (numberedFrames mss ci isC2s n frames).mergeSort
      (fun x y => decide (key x ≤ key y)), ∃ m,
        x.2 = OutPkt.number m (frameSegments mss ci isC2s x.1) := by
    intro x hx
    obtain ⟨m, -, heq⟩ := mem_numbered_frames (List.mem_mergeSort.mp hx)
    exact ⟨m, heq⟩
  rw [orderedData, List.pairwise_flatten]
  constructor
  · rw [List.forall_mem_map]
    intro x hx
    obtain ⟨m, heq⟩ := hblock x hx
    rw [heq]
    refine (OutPkt.number_pairwise m _).imp_of_mem fun {p q} hp hq hseq => ?_
    obtain ⟨⟨hpts, hpphase, hpconn, -⟩, -⟩ := mem_number_segments hp
    obtain ⟨⟨hqts, hqphase, hqconn, -⟩, -⟩ := mem_number_segments hq
    rw [OutPkt.sort_key_lt_iff]
    omega
  · rw [List.pairwise_map]
    refine (merge_sort_stable key (numbered_frames_pairwise n frames)).imp_of_mem ?_
    intro x y hx hy hlt p hp q hq
    obtain ⟨m, hxeq⟩ := hblock x hx
    obtain ⟨m', hyeq⟩ := hblock y hy
    obtain ⟨⟨hpts, hpphase, hpconn, -⟩, -⟩ := mem_number_segments (hxeq ▸ hp)
    obtain ⟨⟨hqts, hqphase, hqconn, -⟩, -⟩ := mem_number_segments (hyeq ▸ hq)
    rw [OutPkt.sort_key_lt_iff]
    rcases hlt with hlt | ⟨heq, hseq⟩
    · exact Or.inl (by rw [hpts, hqts]; exact hlt)
    · have hpq := hseq p hp q hq
      have hts : p.ts = q.ts := by rw [hpts, hqts]; exact heq
      omega

/-- They carry the frames sorted by time. -/
theorem ordered_data_payload (n : Nat) (frames : List (Nat × Bytes)) :
    (orderedData mss ci isC2s n frames).flatMap OutPkt.payload =
      ((inTimeOrder frames).map Prod.snd).flatten := by
  have hfst : ((numberedFrames mss ci isC2s n frames).mergeSort
      fun x y => decide (x.1.1 ≤ y.1.1)).map Prod.fst = inTimeOrder frames := by
    have hmap := List.map_mergeSort (f := Prod.fst) (l := numberedFrames mss ci isC2s n frames)
      (r := fun x y => decide (x.1.1 ≤ y.1.1)) (s := fun f g => decide (f.1 ≤ g.1))
      fun _ _ _ _ => rfl
    rwa [numbered_frames_fst] at hmap
  have hpayload : ∀ x ∈ (numberedFrames mss ci isC2s n frames).mergeSort
      (fun x y => decide (x.1.1 ≤ y.1.1)), x.2.flatMap OutPkt.payload = x.1.2 := by
    intro x hx
    obtain ⟨m, -, heq⟩ := mem_numbered_frames (List.mem_mergeSort.mp hx)
    rw [heq, OutPkt.number_payloads, frame_segments_payload]
  rw [← hfst, orderedData]
  generalize (numberedFrames mss ci isC2s n frames).mergeSort _ = sorted at hpayload
  induction sorted with
  | nil => rfl
  | cons x sorted ih =>
      obtain ⟨hx, hsorted⟩ := List.forall_mem_cons.mp hpayload
      simp only [List.map_cons, List.flatten_cons, List.flatMap_append, hx, ih hsorted]

/-! ## The ends of a connection -/

variable (cs : ConnState)

/-- The packet with the SYN of a direction. -/
def synPkt (ci : Nat) (isC2s : Bool) : OutPkt :=
  ⟨cs.firstTs, 0, ci, if isC2s then 0 else 1, isC2s,
    if isC2s then TcpFlags.syn else TcpFlags.syn ||| TcpFlags.ack, []⟩

/-- The acknowledgement that ends the handshake. -/
def ackPkts (ci : Nat) (isC2s : Bool) : List OutPkt :=
  if isC2s then [⟨cs.firstTs, 0, ci, 2, true, TcpFlags.ack, []⟩] else []

/-- The packet with the FIN of a direction. -/
def finPkt (ci : Nat) (isC2s : Bool) (n : Nat) : OutPkt :=
  ⟨max cs.lastTs cs.firstTs, 2, ci, n, isC2s, TcpFlags.fin ||| TcpFlags.ack, []⟩

theorem syn_pkt_flags (ci : Nat) (isC2s : Bool) :
    (cs.synPkt ci isC2s).flags &&& TcpFlags.syn ≠ 0 ∧
      (cs.synPkt ci isC2s).flags &&& TcpFlags.fin = 0 := by
  show (if isC2s then TcpFlags.syn else TcpFlags.syn ||| TcpFlags.ack) &&& TcpFlags.syn ≠ 0 ∧
    (if isC2s then TcpFlags.syn else TcpFlags.syn ||| TcpFlags.ack) &&& TcpFlags.fin = 0
  cases isC2s <;> decide

theorem ack_pkts_flags {p : OutPkt} (h : p ∈ cs.ackPkts ci isC2s) :
    p.flags &&& TcpFlags.syn = 0 ∧ p.flags &&& TcpFlags.fin = 0 := by
  unfold ackPkts at h
  split at h
  · obtain rfl := List.mem_singleton.mp h
    have hack : TcpFlags.ack &&& TcpFlags.syn = 0 ∧ TcpFlags.ack &&& TcpFlags.fin = 0 := by decide
    exact hack
  · cases h

theorem fin_flags : (TcpFlags.fin ||| TcpFlags.ack) &&& TcpFlags.syn = 0 ∧
    (TcpFlags.fin ||| TcpFlags.ack) &&& TcpFlags.fin ≠ 0 := by decide

theorem data_flags : (TcpFlags.psh ||| TcpFlags.ack) &&& TcpFlags.syn = 0 ∧
    (TcpFlags.psh ||| TcpFlags.ack) &&& TcpFlags.fin = 0 := by decide

variable (mss ci isC2s) in
/-- The packets of a direction, before they are sorted. -/
theorem filter_direction :
    ∃ n m, (packets mss ci cs).filter (fun p => p.isC2s == isC2s) =
      cs.synPkt ci isC2s :: (cs.ackPkts ci isC2s ++
        (OutPkt.number n (segments mss ci cs isC2s) ++ [cs.finPkt ci isC2s m])) := by
  have hsegments : ∀ n side,
      (OutPkt.number n (segments mss ci cs side)).filter (fun p => p.isC2s == isC2s) =
        if side == isC2s then OutPkt.number n (segments mss ci cs side) else [] := by
    intro n side
    refine OutPkt.filter_number n fun q hq i => ?_
    obtain ⟨f, -, hf⟩ := List.mem_flatMap.mp hq
    obtain ⟨chunk, -, rfl⟩ := List.mem_map.mp hf
    rfl
  have hhandshake : (OutPkt.number 0 (cs.handshake ci)).filter (fun p => p.isC2s == isC2s) =
      cs.synPkt ci isC2s :: cs.ackPkts ci isC2s := by
    cases isC2s <;> rfl
  have hclosing : ∀ n, ∃ m, (OutPkt.number n (cs.closing ci)).filter (fun p => p.isC2s == isC2s) =
      [cs.finPkt ci isC2s m] := by
    intro n
    cases isC2s with
    | true => exact ⟨n, rfl⟩
    | false => exact ⟨n + 1, rfl⟩
  rw [packets]
  simp only [OutPkt.number_append, List.filter_append, hsegments, hhandshake]
  obtain ⟨m, hm⟩ := hclosing (0 + (cs.handshake ci ++ segments mss ci cs true ++
    segments mss ci cs false).length)
  rw [hm]
  cases isC2s with
  | true => exact ⟨_, m, by simp; rfl⟩
  | false => exact ⟨_, m, by simp; rfl⟩

end ConnState

/-! ## The packets of a direction -/

/-- The packets of a direction of a connection in file order. -/
def directionPackets (mss : Nat) (taken : List Taken) (ci : Nat) (isC2s : Bool) : List OutPkt :=
  (sortedPackets mss taken).filter fun p => p.conn == ci && p.isC2s == isC2s

section

variable (mss : Nat) {taken : List Taken} {t : Taken}

/-- No packet of a connection is out of range. -/
theorem direction_packets_eq (h : Numbered taken) (ht : t ∈ taken) (isC2s : Bool) :
    directionPackets mss taken t.conn isC2s =
      ((taken.flatMap fun t => t.state.packets mss t.conn).mergeSort fun p q =>
        decide (p.sortKey ≤ q.sortKey)).filter fun p => p.conn == t.conn && p.isC2s == isC2s := by
  obtain ⟨hrange, -⟩ := List.getElem?_eq_some_iff.mp (h.inRange t ht)
  rw [directionPackets, sortedPackets, List.filter_filter]
  refine List.filter_congr fun p _ => ?_
  by_cases hconn : p.conn = t.conn
  · simp [hconn, hrange]
  · simp [hconn]

theorem direction_packets_perm (h : Numbered taken) (ht : t ∈ taken) (isC2s : Bool) :
    (directionPackets mss taken t.conn isC2s).Perm
      ((t.state.packets mss t.conn).filter fun p => p.isC2s == isC2s) := by
  rw [direction_packets_eq mss h ht, ← filter_conn h.nodup ht fun p => p.isC2s == isC2s]
  exact (List.mergeSort_perm _ _).filter _

theorem direction_packets_sorted (h : Numbered taken) (ht : t ∈ taken) (isC2s : Bool) :
    (directionPackets mss taken t.conn isC2s).Pairwise fun p q => p.sortKey ≤ q.sortKey := by
  rw [direction_packets_eq mss h ht]
  exact (merge_sort_pairwise OutPkt.sortKey _).filter _

/-- The payloads are the frames sorted by time. -/
theorem direction_packets_payload (h : Numbered taken) (ht : t ∈ taken) (isC2s : Bool) :
    (directionPackets mss taken t.conn isC2s).flatMap OutPkt.payload =
      ((ConnState.inTimeOrder (t.state.stream isC2s)).map Prod.snd).flatten := by
  obtain ⟨n, hpackets⟩ := ConnState.filter_packets mss t.conn isC2s t.state
  have hdata : ((taken.flatMap fun t => t.state.packets mss t.conn).mergeSort fun p q =>
      decide (p.sortKey ≤ q.sortKey)).filter
        (fun p => p.conn == t.conn && ConnState.isData isC2s p) =
      ConnState.orderedData mss t.conn isC2s n (t.state.stream isC2s) := by
    refine sort_filter_eq OutPkt.sortKey ?_ (ConnState.ordered_data_pairwise n _)
    rw [filter_conn h.nodup ht, hpackets]
    exact ConnState.ordered_data_perm n _
  rw [direction_packets_eq mss h ht, ← ConnState.ordered_data_payload n, ← hdata]
  refine flat_map_filter_congr fun p hp hdiffer => ?_
  obtain ⟨t', ht', hp⟩ := List.mem_flatMap.mp (List.mem_mergeSort.mp hp)
  refine (ConnState.packets_facts mss t'.conn t'.state hp).2.1 fun hphase => hdiffer ?_
  simp only [ConnState.isData, hphase, beq_self_eq_true, Bool.true_and]

/-- A packet of a direction has the SYN, the FIN or no payload otherwise, or it carries a piece of a
frame. -/
theorem mem_direction_packets (h : Numbered taken) (ht : t ∈ taken) (isC2s : Bool) :
    ∃ m, ∀ p ∈ directionPackets mss taken t.conn isC2s,
      p = t.state.synPkt t.conn isC2s ∨ p ∈ t.state.ackPkts t.conn isC2s ∨
        p = t.state.finPkt t.conn isC2s m ∨
        ∃ f ∈ t.state.stream isC2s, ∃ chunk ∈ chunks mss f.2,
          p = ⟨f.1, 1, t.conn, p.seqInConn, isC2s, TcpFlags.psh ||| TcpFlags.ack, chunk⟩ := by
  obtain ⟨n, m, hpackets⟩ := ConnState.filter_direction mss t.conn isC2s t.state
  refine ⟨m, fun p hp => ?_⟩
  have hmem := (direction_packets_perm mss h ht isC2s).subset hp
  rw [hpackets, List.mem_cons, List.mem_append, List.mem_append, List.mem_singleton] at hmem
  rcases hmem with rfl | hack | hdata | rfl
  · exact Or.inl rfl
  · exact Or.inr (Or.inl hack)
  · obtain ⟨q, hq, heq, -⟩ := OutPkt.mem_number hdata
    obtain ⟨f, hf, hq⟩ := List.mem_flatMap.mp hq
    obtain ⟨chunk, hchunk, rfl⟩ := List.mem_map.mp hq
    exact Or.inr (Or.inr (Or.inr ⟨f, hf, chunk, hchunk, heq⟩))
  · exact Or.inr (Or.inr (Or.inl rfl))

/-- The SYN, the FIN and the pieces of all frames are packets of the direction. -/
theorem direction_packets_mem (h : Numbered taken) (ht : t ∈ taken) (isC2s : Bool) :
    t.state.synPkt t.conn isC2s ∈ directionPackets mss taken t.conn isC2s ∧
      (∃ m, t.state.finPkt t.conn isC2s m ∈ directionPackets mss taken t.conn isC2s) ∧
      ∀ f ∈ t.state.stream isC2s, ∀ chunk ∈ chunks mss f.2, ∃ i,
        ⟨f.1, 1, t.conn, i, isC2s, TcpFlags.psh ||| TcpFlags.ack, chunk⟩ ∈
          directionPackets mss taken t.conn isC2s := by
  obtain ⟨n, m, hpackets⟩ := ConnState.filter_direction mss t.conn isC2s t.state
  have hmem := fun p => (direction_packets_perm mss h ht isC2s).mem_iff (a := p)
  simp only [hpackets, List.mem_cons, List.mem_append] at hmem
  refine ⟨(hmem _).mpr (Or.inl rfl), ⟨m, (hmem _).mpr (by simp)⟩, fun f hf chunk hchunk => ?_⟩
  have hsegment : ⟨f.1, 1, t.conn, 0, isC2s, TcpFlags.psh ||| TcpFlags.ack, chunk⟩ ∈
      ConnState.segments mss t.conn t.state isC2s :=
    List.mem_flatMap.mpr ⟨f, hf, List.mem_map_of_mem hchunk⟩
  obtain ⟨i, hi⟩ := OutPkt.exists_mem_number n hsegment
  exact ⟨i, (hmem _).mpr (Or.inr (Or.inr (Or.inl hi)))⟩

/-- All packets fit exactly if the longest piece of every frame does. -/
theorem direction_packets_fit_iff (h : Numbered taken) (ht : t ∈ taken) (isC2s : Bool)
    (hframes : ∀ f ∈ t.state.stream isC2s, f.2 ≠ []) (ip : IpAddr) :
    (∀ p ∈ directionPackets mss taken t.conn isC2s, p.Fits ip) ↔
      ∀ f ∈ t.state.stream isC2s, Pkt.overhead ip + min (max mss 1) f.2.length < 2 ^ 16 := by
  constructor
  · intro hfits f hf
    obtain ⟨i, hi⟩ := (direction_packets_mem mss h ht isC2s).2.2 f hf _
      (take_mem_chunks mss (hframes f hf))
    have hpiece := hfits _ hi
    rwa [OutPkt.Fits, List.length_take] at hpiece
  · intro hlong p hp
    have hoverhead : Pkt.overhead ip < 2 ^ 16 := by
      cases ip <;> simp only [Pkt.overhead] <;> omega
    obtain ⟨m, hcases⟩ := mem_direction_packets mss h ht isC2s
    rcases hcases p hp with rfl | hack | rfl | ⟨f, hf, chunk, hchunk, heq⟩
    · exact hoverhead
    · unfold ConnState.ackPkts at hack
      split at hack
      · rw [List.mem_singleton.mp hack]
        exact hoverhead
      · cases hack
    · exact hoverhead
    · rw [heq]
      exact lt_of_le_of_lt (Nat.add_le_add_left (mem_chunks_length hchunk) _) (hlong f hf)

/-- The only SYN and the only FIN of a direction. -/
theorem control_of_flags (h : Numbered taken) (ht : t ∈ taken) (isC2s : Bool) :
    ∃ m, ∀ p ∈ directionPackets mss taken t.conn isC2s,
      (p.flags &&& TcpFlags.syn ≠ 0 → p = t.state.synPkt t.conn isC2s) ∧
        (p.flags &&& TcpFlags.fin ≠ 0 → p = t.state.finPkt t.conn isC2s m) := by
  obtain ⟨m, hcases⟩ := mem_direction_packets mss h ht isC2s
  refine ⟨m, fun p hp => ?_⟩
  rcases hcases p hp with rfl | hack | rfl | ⟨f, -, chunk, -, heq⟩
  · exact ⟨fun _ => rfl, fun hfin => absurd (ConnState.syn_pkt_flags _ _ _).2 hfin⟩
  · obtain ⟨hsyn, hfin⟩ := ConnState.ack_pkts_flags _ hack
    exact ⟨fun h => absurd hsyn h, fun h => absurd hfin h⟩
  · exact ⟨fun hsyn => absurd ConnState.fin_flags.1 hsyn, fun _ => rfl⟩
  · rw [heq]
    exact ⟨fun hsyn => absurd ConnState.data_flags.1 hsyn,
      fun hfin => absurd ConnState.data_flags.2 hfin⟩

/-- When no frame is older than the connection's first packet or newer than its last one, sorting
leaves the data between the handshake and the FIN. -/
theorem direction_packets_of_within (h : Numbered taken) (ht : t ∈ taken) (isC2s : Bool)
    (hwithin : ∀ f ∈ t.state.stream isC2s,
      t.state.firstTs ≤ f.1 ∧ f.1 ≤ max t.state.lastTs t.state.firstTs) :
    ∃ n m, directionPackets mss taken t.conn isC2s = t.state.synPkt t.conn isC2s ::
      (t.state.ackPkts t.conn isC2s ++
        (ConnState.orderedData mss t.conn isC2s n (t.state.stream isC2s) ++
          [t.state.finPkt t.conn isC2s m])) := by
  obtain ⟨n, m, hpackets⟩ := ConnState.filter_direction mss t.conn isC2s t.state
  refine ⟨n, m, ?_⟩
  rw [direction_packets_eq mss h ht]
  refine sort_filter_eq OutPkt.sortKey ?_ ?_
  · rw [filter_conn h.nodup ht fun p => p.isC2s == isC2s, hpackets]
    exact ((((ConnState.ordered_data_perm n _).append_right _).append_left _).cons _)
  · have hdata : ∀ p ∈ ConnState.orderedData mss t.conn isC2s n (t.state.stream isC2s),
        p.phase = 1 ∧ p.conn = t.conn ∧ t.state.firstTs ≤ p.ts ∧
          p.ts ≤ max t.state.lastTs t.state.firstTs := by
      intro p hp
      obtain ⟨q, hq, heq, -⟩ := OutPkt.mem_number ((ConnState.ordered_data_perm n _).subset hp)
      obtain ⟨f, hf, hq⟩ := List.mem_flatMap.mp hq
      obtain ⟨chunk, -, rfl⟩ := List.mem_map.mp hq
      rw [heq]
      exact ⟨rfl, rfl, hwithin f hf⟩
    have hack : ∀ p ∈ t.state.ackPkts t.conn isC2s, isC2s = true ∧
        p = ⟨t.state.firstTs, 0, t.conn, 2, true, TcpFlags.ack, []⟩ := by
      intro p hp
      unfold ConnState.ackPkts at hp
      split at hp
      · exact ⟨‹_›, List.mem_singleton.mp hp⟩
      · cases hp
    have hlast := le_max_right t.state.lastTs t.state.firstTs
    have hfirst : (t.state.synPkt t.conn isC2s).seqInConn ≤ 1 := by
      unfold ConnState.synPkt
      split
      · exact Nat.zero_le 1
      · exact le_refl 1
    have hbefore : ∀ p : OutPkt, p.ts = t.state.firstTs → p.phase = 0 → p.conn = t.conn →
        ∀ q ∈ ConnState.orderedData mss t.conn isC2s n (t.state.stream isC2s) ++
          [t.state.finPkt t.conn isC2s m], p.sortKey < q.sortKey := by
      intro p hts hphase hconn q hq
      rw [OutPkt.sort_key_lt_iff]
      rcases List.mem_append.mp hq with hq | hq
      · have := hdata q hq
        omega
      · obtain rfl := List.mem_singleton.mp hq
        simp only [ConnState.finPkt]
        omega
    rw [List.pairwise_cons, List.pairwise_append, List.pairwise_append]
    refine ⟨?_, ?_, ⟨ConnState.ordered_data_pairwise n _, List.pairwise_singleton _ _, ?_⟩, ?_⟩
    · intro q hq
      rcases List.mem_append.mp hq with hq | hq
      · rw [OutPkt.sort_key_lt_iff, (hack q hq).2]
        exact Or.inr ⟨rfl, Or.inr ⟨rfl, Or.inr ⟨rfl, lt_of_le_of_lt hfirst Nat.one_lt_two⟩⟩⟩
      · exact hbefore _ rfl rfl rfl q hq
    · unfold ConnState.ackPkts
      split
      · exact List.pairwise_singleton _ _
      · exact List.Pairwise.nil
    · intro p hp q hq
      obtain rfl := List.mem_singleton.mp hq
      have := hdata p hp
      rw [OutPkt.sort_key_lt_iff]
      simp only [ConnState.finPkt]
      omega
    · intro p hp
      obtain ⟨-, rfl⟩ := hack p hp
      exact hbefore _ rfl rfl rfl

/-- The SYN comes first and the FIN last exactly if no frame is older than the connection's first
packet or newer than its last one. -/
theorem syn_to_fin_iff (h : Numbered taken) (ht : t ∈ taken) (isC2s : Bool)
    (hframes : ∀ f ∈ t.state.stream isC2s, f.2 ≠ []) :
    SynToFin ((directionPackets mss taken t.conn isC2s).map OutPkt.flags) ↔
      ∀ f ∈ t.state.stream isC2s,
        t.state.firstTs ≤ f.1 ∧ f.1 ≤ max t.state.lastTs t.state.firstTs := by
  constructor
  · intro hends f hf
    obtain ⟨m, hcontrol⟩ := control_of_flags mss h ht isC2s
    obtain ⟨i, hdata⟩ := (direction_packets_mem mss h ht isC2s).2.2 f hf _
      (take_mem_chunks mss (hframes f hf))
    have hsorted := direction_packets_sorted mss h ht isC2s
    generalize directionPackets mss taken t.conn isC2s = pkts at hends hcontrol hdata hsorted
    constructor
    · obtain ⟨flags, rest, heq, hsyn, -⟩ := hends.synFirst
      obtain ⟨p, pkts, rfl, rfl, rfl⟩ := List.map_eq_cons_iff.mp heq
      obtain rfl := (hcontrol p List.mem_cons_self).1 hsyn
      rcases List.mem_cons.mp hdata with heq | hdata
      · exact absurd (congrArg OutPkt.phase heq) Nat.one_ne_zero
      · have hle := (List.pairwise_cons.mp hsorted).1 _ hdata
        rw [OutPkt.sort_key_le_iff] at hle
        exact hle.elim le_of_lt fun heq => le_of_eq heq.1
    · obtain ⟨front, flags, heq, hfin, -⟩ := hends.finLast
      obtain ⟨pkts, last, rfl, rfl, hlast⟩ := List.map_eq_append_iff.mp heq
      obtain ⟨p, last, rfl, rfl, hnil⟩ := List.map_eq_cons_iff.mp hlast
      obtain rfl := List.map_eq_nil_iff.mp hnil
      obtain rfl := (hcontrol p (by simp)).2 hfin
      rcases List.mem_append.mp hdata with hdata | hdata
      · have hle := (List.pairwise_append.mp hsorted).2.2 _ hdata _ List.mem_cons_self
        rw [OutPkt.sort_key_le_iff] at hle
        exact hle.elim le_of_lt fun heq => le_of_eq heq.1
      · have hphase : (1 : Nat) = 2 := congrArg OutPkt.phase (List.mem_singleton.mp hdata)
        cases hphase
  · intro hwithin
    obtain ⟨n, m, heq⟩ := direction_packets_of_within mss h ht isC2s hwithin
    have hdata : ∀ p ∈ ConnState.orderedData mss t.conn isC2s n (t.state.stream isC2s),
        p.flags = TcpFlags.psh ||| TcpFlags.ack := by
      intro p hp
      obtain ⟨q, hq, heq, -⟩ := OutPkt.mem_number ((ConnState.ordered_data_perm n _).subset hp)
      obtain ⟨f, hf, hq⟩ := List.mem_flatMap.mp hq
      obtain ⟨chunk, -, rfl⟩ := List.mem_map.mp hq
      rw [heq]
    rw [heq]
    constructor
    · refine ⟨_, _, rfl, (ConnState.syn_pkt_flags _ _ _).1, ?_⟩
      rw [List.forall_mem_map, List.forall_mem_append, List.forall_mem_append,
        List.forall_mem_singleton]
      refine ⟨fun p hp => (ConnState.ack_pkts_flags _ hp).1, fun p hp => ?_, ConnState.fin_flags.1⟩
      rw [hdata p hp]
      exact ConnState.data_flags.1
    · refine ⟨(t.state.synPkt t.conn isC2s :: (t.state.ackPkts t.conn isC2s ++
        ConnState.orderedData mss t.conn isC2s n (t.state.stream isC2s))).map OutPkt.flags, _,
        ?_, ConnState.fin_flags.2, ?_⟩
      · simp [ConnState.finPkt]
      · rw [List.forall_mem_map, List.forall_mem_cons, List.forall_mem_append]
        refine ⟨(ConnState.syn_pkt_flags _ _ _).2, fun p hp => (ConnState.ack_pkts_flags _ hp).2,
          fun p hp => ?_⟩
        rw [hdata p hp]
        exact ConnState.data_flags.2

end

end H2Tap
