import H2Tap.Rebuild.Timely

/-!
# A connection of the rebuilt capture in file order

A connection is written as a handshake, the pieces of both directions and two FINs. A piece is the
preface or an item, and its packets have one time, so sorting moves pieces as a whole. If no piece
is older than the first packet of the connection or newer than its last one, the file has the
handshake, the pieces by time and then the FINs (`conn_packets_of_within`). If moreover the times of
a direction never go back, sorting leaves its pieces in their order (`filter_ordered_pieces`).
-/

namespace H2Tap

open Lib

/-- A part of a direction that is written at one time: an item, or the preface (`none`). -/
structure Piece where
  isC2s : Bool
  ts : Nat
  item : Option Normalized
  deriving DecidableEq

namespace Piece

/-- The frames of a piece. -/
def frames (p : Piece) : List Bytes := p.item.elim [preface] Normalized.frames

/-- The segments of a piece. -/
def segments (mss ci : Nat) (p : Piece) : List OutPkt :=
  p.frames.flatMap fun frame => ConnState.frameSegments mss ci p.isC2s (p.ts, frame)

/-- All segments of a piece have its time and its direction. -/
theorem mem_segments {mss ci : Nat} {p : Piece} {q : OutPkt} (h : q ∈ p.segments mss ci) :
    q.ts = p.ts ∧ q.phase = 1 ∧ q.conn = ci ∧ q.flags = TcpFlags.psh ||| TcpFlags.ack := by
  obtain ⟨frame, -, hq⟩ := List.mem_flatMap.mp h
  obtain ⟨chunk, -, rfl⟩ := List.mem_map.mp hq
  exact ⟨rfl, rfl, rfl, rfl⟩

/-- Every piece next to its segments, numbered from `n` on. -/
def numbered (mss ci n : Nat) : List Piece → List (Piece × List OutPkt)
  | [] => []
  | p :: pieces => (p, OutPkt.number n (p.segments mss ci)) ::
      numbered mss ci (n + (p.segments mss ci).length) pieces

variable {mss ci n : Nat}

theorem numbered_fst (pieces : List Piece) : (numbered mss ci n pieces).map Prod.fst = pieces := by
  induction pieces generalizing n with
  | nil => rfl
  | cons p pieces ih => rw [numbered, List.map_cons, ih]

theorem numbered_flatten (pieces : List Piece) :
    ((numbered mss ci n pieces).map Prod.snd).flatten =
      OutPkt.number n (pieces.flatMap (segments mss ci)) := by
  induction pieces generalizing n with
  | nil => rfl
  | cons p pieces ih =>
      rw [numbered, List.map_cons, List.flatten_cons, ih, List.flatMap_cons, OutPkt.number_append]

theorem mem_numbered {pieces : List Piece} {x : Piece × List OutPkt}
    (h : x ∈ numbered mss ci n pieces) :
    ∃ m, n ≤ m ∧ x.2 = OutPkt.number m (x.1.segments mss ci) := by
  induction pieces generalizing n with
  | nil => cases h
  | cons p pieces ih =>
      rcases List.mem_cons.mp h with rfl | h
      · exact ⟨n, le_refl n, rfl⟩
      · obtain ⟨m, hm, heq⟩ := ih h
        exact ⟨m, by omega, heq⟩

/-- The segments of a piece, once they are numbered. -/
theorem mem_number_segments {m : Nat} {p : Piece} {q : OutPkt}
    (hq : q ∈ OutPkt.number m (p.segments mss ci)) :
    (q.ts = p.ts ∧ q.phase = 1 ∧ q.conn = ci) ∧
      m ≤ q.seqInConn ∧ q.seqInConn < m + (p.segments mss ci).length := by
  obtain ⟨q', hq', heq, hle, hlt⟩ := OutPkt.mem_number hq
  obtain ⟨hts, hphase, hconn, -⟩ := mem_segments hq'
  rw [heq]
  exact ⟨⟨hts, hphase, hconn⟩, hle, hlt⟩

/-- Later pieces have later numbers. -/
theorem numbered_pairwise (pieces : List Piece) :
    (numbered mss ci n pieces).Pairwise fun x y =>
      ∀ p ∈ x.2, ∀ q ∈ y.2, p.seqInConn < q.seqInConn := by
  induction pieces generalizing n with
  | nil => exact List.Pairwise.nil
  | cons p pieces ih =>
      refine List.pairwise_cons.mpr ⟨fun y hy a ha b hb => ?_, ih⟩
      obtain ⟨m, hm, heq⟩ := mem_numbered hy
      obtain ⟨-, -, hlt⟩ := mem_number_segments ha
      obtain ⟨-, hle, -⟩ := mem_number_segments (heq ▸ hb)
      omega

/-- The numbered segments of pieces, sorted by time. -/
def sortedSegments (mss ci n : Nat) (pieces : List Piece) : List OutPkt :=
  (((numbered mss ci n pieces).mergeSort fun x y => decide (x.1.ts ≤ y.1.ts)).map
    Prod.snd).flatten

theorem sorted_segments_perm (pieces : List Piece) :
    (sortedSegments mss ci n pieces).Perm
      (OutPkt.number n (pieces.flatMap (segments mss ci))) := by
  rw [← numbered_flatten]
  exact ((List.mergeSort_perm _ _).map Prod.snd).flatten

/-- They are sorted as packets. -/
theorem sorted_segments_pairwise (pieces : List Piece) :
    (sortedSegments mss ci n pieces).Pairwise fun p q => p.sortKey < q.sortKey := by
  let key : Piece × List OutPkt → Nat := fun x => x.1.ts
  have hblock : ∀ x ∈ (numbered mss ci n pieces).mergeSort
      (fun x y => decide (key x ≤ key y)), ∃ m, x.2 = OutPkt.number m (x.1.segments mss ci) := by
    intro x hx
    obtain ⟨m, -, heq⟩ := mem_numbered (List.mem_mergeSort.mp hx)
    exact ⟨m, heq⟩
  rw [sortedSegments, List.pairwise_flatten]
  constructor
  · rw [List.forall_mem_map]
    intro x hx
    obtain ⟨m, heq⟩ := hblock x hx
    rw [heq]
    refine (OutPkt.number_pairwise m _).imp_of_mem fun {p q} hp hq hseq => ?_
    obtain ⟨⟨hpts, hpphase, hpconn⟩, -⟩ := mem_number_segments hp
    obtain ⟨⟨hqts, hqphase, hqconn⟩, -⟩ := mem_number_segments hq
    rw [OutPkt.sort_key_lt_iff]
    omega
  · rw [List.pairwise_map]
    refine (merge_sort_stable key (numbered_pairwise pieces)).imp_of_mem ?_
    intro x y hx hy hlt p hp q hq
    obtain ⟨m, hxeq⟩ := hblock x hx
    obtain ⟨m', hyeq⟩ := hblock y hy
    obtain ⟨⟨hpts, hpphase, hpconn⟩, -⟩ := mem_number_segments (hxeq ▸ hp)
    obtain ⟨⟨hqts, hqphase, hqconn⟩, -⟩ := mem_number_segments (hyeq ▸ hq)
    rw [OutPkt.sort_key_lt_iff]
    rcases hlt with hlt | ⟨heq, hseq⟩
    · exact Or.inl (by rw [hpts, hqts]; exact hlt)
    · have hpq := hseq p hp q hq
      have hts : p.ts = q.ts := by rw [hpts, hqts]; exact heq
      omega

end Piece

/-- The packet with no number. -/
def OutPkt.unnumbered (p : OutPkt) : OutPkt := { p with seqInConn := 0 }

theorem OutPkt.unnumbered_number (n : Nat) (pkts : List OutPkt) :
    (OutPkt.number n pkts).map OutPkt.unnumbered = pkts.map OutPkt.unnumbered := by
  induction pkts generalizing n with
  | nil => rfl
  | cons p pkts ih => rw [number_cons, List.map_cons, List.map_cons, ih]; rfl

/-- The segments of a piece have no numbers yet. -/
theorem Piece.unnumbered_segments (mss ci : Nat) (p : Piece) :
    (p.segments mss ci).map OutPkt.unnumbered = p.segments mss ci := by
  have hself : ∀ q ∈ p.segments mss ci, q.unnumbered = id q := by
    intro q hq
    obtain ⟨frame, -, hq⟩ := List.mem_flatMap.mp hq
    obtain ⟨chunk, -, rfl⟩ := List.mem_map.mp hq
    rfl
  rw [List.map_congr_left hself, List.map_id]

/-- Pieces sorted by time. Pieces of one time stay in their order. -/
def Piece.byTime (pieces : List Piece) : List Piece :=
  pieces.mergeSort fun p q => decide (p.ts ≤ q.ts)

theorem Piece.unnumbered_sorted_segments (mss ci n : Nat) (pieces : List Piece) :
    (Piece.sortedSegments mss ci n pieces).map OutPkt.unnumbered =
      (Piece.byTime pieces).flatMap (Piece.segments mss ci) := by
  have hfst : ((Piece.numbered mss ci n pieces).mergeSort
      fun x y => decide (x.1.ts ≤ y.1.ts)).map Prod.fst = Piece.byTime pieces := by
    have hmap := List.map_mergeSort (f := Prod.fst) (l := Piece.numbered mss ci n pieces)
      (r := fun x y => decide (x.1.ts ≤ y.1.ts)) (s := fun p q => decide (p.ts ≤ q.ts))
      fun _ _ _ _ => rfl
    rwa [Piece.numbered_fst] at hmap
  have hsegments : ∀ x ∈ (Piece.numbered mss ci n pieces).mergeSort
      (fun x y => decide (x.1.ts ≤ y.1.ts)),
      x.2.map OutPkt.unnumbered = x.1.segments mss ci := by
    intro x hx
    obtain ⟨m, -, heq⟩ := Piece.mem_numbered (List.mem_mergeSort.mp hx)
    rw [heq, OutPkt.unnumbered_number, Piece.unnumbered_segments]
  rw [← hfst, Piece.sortedSegments]
  generalize (Piece.numbered mss ci n pieces).mergeSort _ = sorted at hsegments
  induction sorted with
  | nil => rfl
  | cons x sorted ih =>
      obtain ⟨hx, hsorted⟩ := List.forall_mem_cons.mp hsegments
      simp only [List.map_cons, List.flatten_cons, List.map_append, List.flatMap_cons, hx,
        ih hsorted]

namespace ConnState

variable (cs : ConnState)

/-- The pieces of a direction. The client's are led by the preface. -/
def pieces (isC2s : Bool) : List Piece :=
  let items := (cs.dir isC2s).out.map fun item => (⟨isC2s, item.1, some item.2⟩ : Piece)
  if isC2s && !items.isEmpty then ⟨isC2s, cs.firstTs, none⟩ :: items else items

/-- The pieces of both directions. -/
def allPieces : List Piece := cs.pieces true ++ cs.pieces false

/-- The stream of a direction is made of its pieces. -/
theorem stream_eq_pieces (isC2s : Bool) :
    cs.stream isC2s =
      (cs.pieces isC2s).flatMap fun p => p.frames.map fun frame => (p.ts, frame) := by
  have hitems : (cs.dir isC2s).frames = ((cs.dir isC2s).out.map fun item =>
      (⟨isC2s, item.1, some item.2⟩ : Piece)).flatMap fun p =>
        p.frames.map fun frame => (p.ts, frame) := by
    rw [List.flatMap_map]
    rfl
  have hempty : (cs.dir isC2s).frames.isEmpty = ((cs.dir isC2s).out.map fun item =>
      (⟨isC2s, item.1, some item.2⟩ : Piece)).isEmpty := by
    unfold DirState.frames
    cases hout : (cs.dir isC2s).out with
    | nil => rfl
    | cons item out =>
        obtain ⟨frame, frames, hframes⟩ := List.exists_cons_of_ne_nil (frames_ne_nil item.2).1
        simp [hframes]
  simp only [stream, pieces, hempty]
  split
  · rw [List.flatMap_cons, hitems]
    rfl
  · exact hitems

/-- All pieces of a direction are of that direction. -/
theorem side_of_pieces {isC2s : Bool} {p : Piece} (hp : p ∈ cs.pieces isC2s) : p.isC2s = isC2s := by
  simp only [pieces] at hp
  split at hp
  · rcases List.mem_cons.mp hp with rfl | hp
    · rfl
    · obtain ⟨item, -, rfl⟩ := List.mem_map.mp hp
      rfl
  · obtain ⟨item, -, rfl⟩ := List.mem_map.mp hp
    rfl

theorem segments_eq_pieces (mss ci : Nat) (isC2s : Bool) :
    segments mss ci cs isC2s = (cs.pieces isC2s).flatMap (Piece.segments mss ci) := by
  rw [segments, stream_eq_pieces, List.flatMap_assoc]
  refine List.flatMap_congr fun p hp => ?_
  rw [List.flatMap_map, Piece.segments, cs.side_of_pieces hp]

/-- The pieces of a timely connection lie between its first and its last packet, and their times
never go back. -/
theorem Timely.pieces {now : Nat} {cs : ConnState} (h : cs.Timely now) (isC2s : Bool) :
    (cs.pieces isC2s).Pairwise (fun p q => p.ts ≤ q.ts) ∧
      ∀ p ∈ cs.pieces isC2s, cs.firstTs ≤ p.ts ∧ p.ts ≤ cs.lastTs := by
  obtain ⟨hsorted, hwithin⟩ := h.written isC2s
  have hitems : ∀ p ∈ (cs.dir isC2s).out.map (fun item => (⟨isC2s, item.1, some item.2⟩ : Piece)),
      cs.firstTs ≤ p.ts ∧ p.ts ≤ cs.lastTs := List.forall_mem_map.mpr hwithin
  have hpairwise : ((cs.dir isC2s).out.map fun item =>
      (⟨isC2s, item.1, some item.2⟩ : Piece)).Pairwise fun p q => p.ts ≤ q.ts :=
    List.pairwise_map.mpr hsorted
  simp only [ConnState.pieces]
  split
  · exact ⟨List.pairwise_cons.mpr ⟨fun p hp => (hitems p hp).1, hpairwise⟩,
      List.forall_mem_cons.mpr ⟨⟨le_refl _, h.opened⟩, hitems⟩⟩
  · exact ⟨hpairwise, hitems⟩

/-- If the times of a direction never go back, sorting leaves its pieces in their order. -/
theorem filter_ordered_pieces {isC2s : Bool}
    (hsorted : (cs.pieces isC2s).Pairwise fun p q => p.ts ≤ q.ts) :
    (Piece.byTime cs.allPieces).filter (fun p => p.isC2s == isC2s) = cs.pieces isC2s := by
  have hfilter : cs.allPieces.filter (fun p => p.isC2s == isC2s) = cs.pieces isC2s := by
    have hside : ∀ side, (cs.pieces side).filter (fun p => p.isC2s == isC2s) =
        if side == isC2s then cs.pieces side else [] := by
      intro side
      split
      · next hsame =>
          exact List.filter_eq_self.mpr fun p hp => by rw [cs.side_of_pieces hp]; exact hsame
      · next hother =>
          exact List.filter_eq_nil_iff.mpr fun p hp => by rw [cs.side_of_pieces hp]; exact hother
    rw [allPieces, List.filter_append, hside, hside]
    cases isC2s <;> simp
  have hsub : (cs.pieces isC2s).Sublist (Piece.byTime cs.allPieces) := by
    refine List.sublist_mergeSort (fun p q r hpq hqr => ?_) (fun p q => ?_)
      (hsorted.imp fun hle => decide_eq_true hle) ?_
    · simp only [decide_eq_true_eq] at *
      exact hpq.trans hqr
    · simpa using le_total p.ts q.ts
    · rw [← hfilter]
      exact List.filter_sublist
  have hsub' := hsub.filter fun p : Piece => p.isC2s == isC2s
  rw [List.filter_eq_self.mpr fun p hp => by rw [cs.side_of_pieces hp]; exact beq_self_eq_true _]
    at hsub'
  refine (hsub'.eq_of_length ?_).symm
  rw [← hfilter]
  exact ((List.mergeSort_perm _ _).filter _).length_eq.symm

end ConnState

/-! ## The packets of a connection -/

/-- The packets of a connection in file order, without their numbers. -/
def connPackets (mss : Nat) (taken : List Taken) (ci : Nat) : List OutPkt :=
  ((sortedPackets mss taken).filter fun p => p.conn == ci).map OutPkt.unnumbered

/-- The packets of a connection are its handshake, its pieces and its FINs. -/
theorem packets_eq_pieces (cs : ConnState) (mss ci : Nat) :
    cs.packets mss ci = OutPkt.number 0 (cs.handshake ci) ++
      (OutPkt.number 3 (cs.allPieces.flatMap (Piece.segments mss ci)) ++
        OutPkt.number (3 + (cs.allPieces.flatMap (Piece.segments mss ci)).length)
          (cs.closing ci)) := by
  have hall : cs.allPieces.flatMap (Piece.segments mss ci) =
      ConnState.segments mss ci cs true ++ ConnState.segments mss ci cs false := by
    rw [ConnState.allPieces, List.flatMap_append, ConnState.segments_eq_pieces,
      ConnState.segments_eq_pieces]
  rw [ConnState.packets, List.append_assoc, List.append_assoc, OutPkt.number_append,
    ← List.append_assoc (ConnState.segments _ _ _ true), ← hall, OutPkt.number_append]
  simp [ConnState.handshake]

/-- Numbered packets with one time, phase and connection are in file order. -/
theorem number_pairwise_of_same {m ts phase conn : Nat} {pkts : List OutPkt}
    (hsame : ∀ p ∈ OutPkt.number m pkts, p.ts = ts ∧ p.phase = phase ∧ p.conn = conn) :
    (OutPkt.number m pkts).Pairwise fun p q => p.sortKey < q.sortKey := by
  refine (OutPkt.number_pairwise m pkts).imp_of_mem fun {p q} hp hq hlt => ?_
  have hp' := hsame p hp
  have hq' := hsame q hq
  rw [OutPkt.sort_key_lt_iff]
  omega

/-- The handshake, the sorted pieces and the FINs are in file order, if no piece is older than the
connection's first packet or newer than its last one. -/
theorem sorted_parts_pairwise (mss : Nat) (cs : ConnState) (ci n : Nat)
    (hwithin : ∀ p ∈ cs.allPieces, cs.firstTs ≤ p.ts ∧ p.ts ≤ max cs.lastTs cs.firstTs) :
    (OutPkt.number 0 (cs.handshake ci) ++
      (Piece.sortedSegments mss ci 3 cs.allPieces ++
        OutPkt.number n (cs.closing ci))).Pairwise fun p q => p.sortKey < q.sortKey := by
  have hsegments : ∀ p ∈ Piece.sortedSegments mss ci 3 cs.allPieces,
      p.phase = 1 ∧ p.conn = ci ∧ cs.firstTs ≤ p.ts ∧ p.ts ≤ max cs.lastTs cs.firstTs := by
    intro p hp
    obtain ⟨q, hq, heq, -⟩ := OutPkt.mem_number ((Piece.sorted_segments_perm _).subset hp)
    obtain ⟨piece, hpiece, hq⟩ := List.mem_flatMap.mp hq
    obtain ⟨hts, hphase, hconn, -⟩ := Piece.mem_segments hq
    rw [heq]
    refine ⟨hphase, hconn, ?_⟩
    rw [show ({ q with seqInConn := p.seqInConn } : OutPkt).ts = piece.ts from hts]
    exact hwithin piece hpiece
  have hlast := le_max_right cs.lastTs cs.firstTs
  have hhandshake : ∀ p ∈ OutPkt.number 0 (cs.handshake ci),
      p.ts = cs.firstTs ∧ p.phase = 0 ∧ p.conn = ci := by
    simp [OutPkt.number, ConnState.handshake]
  have hclosing : ∀ p ∈ OutPkt.number n (cs.closing ci),
      p.ts = max cs.lastTs cs.firstTs ∧ p.phase = 2 ∧ p.conn = ci := by
    simp [OutPkt.number, ConnState.closing]
  rw [List.pairwise_append, List.pairwise_append]
  refine ⟨number_pairwise_of_same hhandshake, ⟨Piece.sorted_segments_pairwise _,
    number_pairwise_of_same hclosing, fun p hp q hq => ?_⟩, fun p hp q hq => ?_⟩
  · have hp' := hsegments p hp
    have hq' := hclosing q hq
    rw [OutPkt.sort_key_lt_iff]
    omega
  · have hp' := hhandshake p hp
    rw [OutPkt.sort_key_lt_iff]
    rcases List.mem_append.mp hq with hq | hq
    · have hq' := hsegments q hq
      omega
    · have hq' := hclosing q hq
      omega

/-- When no piece is older than the connection's first packet or newer than its last one, sorting
leaves the pieces between the handshake and the FINs. -/
theorem conn_packets_of_within (mss : Nat) {taken : List Taken} (h : Numbered taken) {t : Taken}
    (ht : t ∈ taken)
    (hwithin : ∀ p ∈ t.state.allPieces,
      t.state.firstTs ≤ p.ts ∧ p.ts ≤ max t.state.lastTs t.state.firstTs) :
    connPackets mss taken t.conn = t.state.handshake t.conn ++
      ((Piece.byTime t.state.allPieces).flatMap (Piece.segments mss t.conn) ++
        t.state.closing t.conn) := by
  obtain ⟨hrange, -⟩ := List.getElem?_eq_some_iff.mp (h.inRange t ht)
  have hown : (sortedPackets mss taken).filter (fun p => p.conn == t.conn) =
      ((taken.flatMap fun t => t.state.packets mss t.conn).mergeSort fun p q =>
        decide (p.sortKey ≤ q.sortKey)).filter fun p => p.conn == t.conn && true := by
    rw [sortedPackets, List.filter_filter]
    refine List.filter_congr fun p _ => ?_
    by_cases hconn : p.conn = t.conn
    · simp [hconn, hrange]
    · simp [hconn]
  -- only the pieces change places
  have hfilter : (sortedPackets mss taken).filter (fun p => p.conn == t.conn) =
      OutPkt.number 0 (t.state.handshake t.conn) ++
        (Piece.sortedSegments mss t.conn 3 t.state.allPieces ++ OutPkt.number
          (3 + (t.state.allPieces.flatMap (Piece.segments mss t.conn)).length)
          (t.state.closing t.conn)) := by
    rw [hown]
    refine sort_filter_eq OutPkt.sortKey ?_ (sorted_parts_pairwise mss t.state t.conn _ hwithin)
    rw [filter_conn h.nodup ht fun _ => true, List.filter_true, packets_eq_pieces]
    exact ((Piece.sorted_segments_perm _).append_right _).append_left _
  rw [connPackets, hfilter, List.map_append, List.map_append, OutPkt.unnumbered_number,
    OutPkt.unnumbered_number, Piece.unnumbered_sorted_segments]
  rfl

end H2Tap
