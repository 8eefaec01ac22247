import H2Tap.Conn.Bounds
import H2Tap.Hpack.Restored
import H2Tap.Hpack.TableSize
import H2Tap.Tracker.Refusals
import H2Tap.Tracker.Delivered

/-!
# What the tracker may hold

The tracker serves hosts that it must not exhaust: it holds at most `max_conns` connections, and of
each direction a dynamic table of at most `table_limit` bytes. `memory_bounded` says so of every
run. The tables are also fit to be restored: `snapshot_restorable` says that what a snapshot records
of a direction adds up to its size and fits its capacity.
-/

namespace H2Tap

open Lib

/-! ## Decoders -/

namespace Decoder

/-- The table is accounted for and tracked up to `limit`. -/
structure Within (limit : Nat) (d : Decoder) : Prop where
  accounted : d.Accounted
  limit_eq : d.trackLimit = limit

variable {limit : Nat} {d : Decoder}

theorem Within.apply_peer_capacity (h : d.Within limit) (n : Nat) :
    (d.applyPeerCapacity n).Within limit where
  accounted := h.accounted.apply_peer_capacity n
  limit_eq := by
    unfold applyPeerCapacity
    split
    · exact (resize_trackLimit d n).trans h.limit_eq
    · exact h.limit_eq

theorem Within.reset_partial (h : d.Within limit) : d.resetPartial.Within limit :=
  ⟨h.accounted.of_reset, h.limit_eq⟩

theorem Within.decode [HuffmanDecoding] (h : d.Within limit) (block : Bytes) :
    (d.decode block).1.Within limit :=
  ⟨h.accounted.decode block, (decode_limit d block rfl).1.trans h.limit_eq⟩

/-- Whatever a tracked decoder was started with. -/
theorem Accounted.within (h : d.Accounted) (limit : Nat) : (d.setTrackLimit limit).Within limit :=
  ⟨h.set_track_limit limit, by unfold setTrackLimit enforceLimit; split <;> rfl⟩

/-- The table does not take more than the limit. -/
theorem Within.size_le (h : d.Within limit) : d.size ≤ limit :=
  h.limit_eq ▸ h.accounted.size_right.size_le_limit

end Decoder

/-! ## Directions and connections -/

variable {limit : Nat}

section

variable [HuffmanDecoding]

/-- What decoding, forgetting and a new capacity keep of the decoder, every operation keeps. -/
theorem Direction.dec_perform {P : Decoder → Prop}
    (hdecode : ∀ dec block, P dec → P (dec.decode block).1)
    (hreset : ∀ dec, P dec → P dec.resetPartial)
    (hcapacity : ∀ dec n, P dec → P (dec.applyPeerCapacity n)) {d : Direction} (h : P d.dec)
    (op : DirOp) : P (d.perform op).1.dec := by
  have hparse : ∀ pushed, P (d.withReassembled pushed).parse.1.dec := by
    intro pushed
    refine parse_keeps (P := fun t => P t.dec) (fun _ ht => dec_parse_step hdecode hreset ht) ?_
    unfold withReassembled
    split
    · exact hreset _ h
    · exact h
  cases op with
  | feed seq data nowUs => exact hparse _
  | tick nowUs =>
      simp only [perform, tick]
      split
      · exact hparse _
      · exact h
  | applyPeerCapacity n => exact hcapacity _ n h

theorem Direction.within_perform {d : Direction} (h : d.dec.Within limit) (op : DirOp) :
    (d.perform op).1.dec.Within limit :=
  dec_perform (fun _ block hdec => hdec.decode block) (fun _ hdec => hdec.reset_partial)
    (fun _ n hdec => hdec.apply_peer_capacity n) h op

omit [HuffmanDecoding] in
theorem Direction.within_peer_capacities (sizes : List Nat) {d : Direction}
    (h : d.dec.Within limit) : (sizes.foldl applyPeerCapacity d).dec.Within limit := by
  induction sizes generalizing d with
  | nil => exact h
  | cons n sizes ih => exact ih (h.apply_peer_capacity n)

/-- A segment of either side. -/
theorem Direction.within_on_segment {dirs : Bool → Direction}
    (h : ∀ side, (dirs side).dec.Within limit) (isC2s : Bool) (seg : TcpSegment) (nowUs : Nat)
    (side : Bool) : (bothOnSegment dirs isC2s seg nowUs side).dec.Within limit := by
  have hnoted : ((dirs isC2s).noted seg).dec.Within limit := by
    unfold noted
    split <;> exact h isC2s
  unfold bothOnSegment
  split
  · unfold onSegment
    split
    · exact hnoted
    · exact within_perform hnoted (.feed seg.seq seg.payload nowUs)
  · exact within_peer_capacities _ (h side)

end

/-- Both tables of a connection are within the limit. -/
def Conn.Within (limit : Nat) (c : Conn) : Prop := ∀ side, (c.dirs side).dec.Within limit

theorem Conn.within_new (freshSyn : Bool) (limit nowUs : Nat) :
    (Conn.new freshSyn limit nowUs).Within limit := by
  intro side
  cases side <;> cases freshSyn
  · exact Decoder.new_partial_accounted.within limit
  · exact Decoder.new_exact_accounted.within limit
  · exact Decoder.new_partial_accounted.within limit
  · exact Decoder.new_exact_accounted.within limit

/-- How many bytes the entries of both tables take, as HPACK counts them. -/
def Conn.tableBytes (c : Conn) : Nat :=
  ((c.c2s.dir.dec.table ++ c.s2c.dir.dec.table).map Field.size).sum

theorem Conn.Within.table_bytes_le {c : Conn} (h : c.Within limit) :
    c.tableBytes ≤ 2 * limit := by
  have hc2s : (c.c2s.dir.dec.table.map Field.size).sum ≤ limit :=
    le_of_eq_of_le (h true).accounted.size_eq.symm (h true).size_le
  have hs2c : (c.s2c.dir.dec.table.map Field.size).sum ≤ limit :=
    le_of_eq_of_le (h false).accounted.size_eq.symm (h false).size_le
  rw [tableBytes, List.map_append, List.sum_append]
  omega

/-! ## The table of connections -/

namespace Tracker

/-- The tracker is within its limits, and every connection is filed under its own addresses. -/
structure Bounded (t : Tracker) : Prop where
  room : t.conns.entries.length ≤ t.maxConns
  within : ∀ k c, t.conns.lookup k = some c → c.toConn.Within t.tableLimit
  filed : ∀ k c, t.conns.lookup k = some c → keyOf c.client c.server = k

theorem bounded_new (serverPorts : List UInt16) (maxConns idleSecs tableLimit : Nat) :
    (Tracker.new serverPorts maxConns idleSecs tableLimit).Bounded where
  room := Nat.zero_le _
  within := fun k c h => by simp [Tracker.new] at h
  filed := fun k c h => by simp [Tracker.new] at h

/-- What never changes. -/
structure SameLimits (t t' : Tracker) : Prop where
  ports : t'.serverPorts = t.serverPorts
  maxConns : t'.maxConns = t.maxConns
  idle : t'.idleUs = t.idleUs
  tableLimit : t'.tableLimit = t.tableLimit

theorem SameLimits.refl (t : Tracker) : SameLimits t t := ⟨rfl, rfl, rfl, rfl⟩

theorem SameLimits.symm {t t' : Tracker} (h : SameLimits t t') : SameLimits t' t :=
  ⟨h.ports.symm, h.maxConns.symm, h.idle.symm, h.tableLimit.symm⟩

theorem SameLimits.trans {t t' t'' : Tracker} (h : SameLimits t t') (h' : SameLimits t' t'') :
    SameLimits t t'' :=
  ⟨h'.ports.trans h.ports, h'.maxConns.trans h.maxConns, h'.idle.trans h.idle,
    h'.tableLimit.trans h.tableLimit⟩

/-- A segment opens a connection under its key. -/
theorem key_of_open_conn (t : Tracker) (seg : EthSegment) (nowUs : Nat) :
    keyOf (t.openConn seg nowUs).client (t.openConn seg nowUs).server =
      keyOf seg.src seg.dst := by
  show keyOf (t.endpoints seg).1 (t.endpoints seg).2 = keyOf seg.src seg.dst
  unfold endpoints
  split
  · rfl
  · split
    · rfl
    · split
      · exact key_of_comm _ _
      · rfl

variable [HuffmanDecoding]

/-- A segment is handed to its target, or refused. Without a target no connection is left under its
key. -/
theorem on_segment_eq (t : Tracker) (seg : EthSegment) (nowUs : Nat) :
    t.onSegment seg nowUs =
      match t.target seg nowUs with
      | some c =>
          { t with
            conns := t.conns.insert (keyOf seg.src seg.dst) { c with
              toConn := (c.toConn.onSegment (seg.src == c.client) seg.toTcpSegment nowUs).1 }
            segments := t.segments + 1 }
      | none =>
          { t with
            conns := t.conns.erase (keyOf seg.src seg.dst)
            segments := t.segments + 1
            rejectedFull := t.rejectedFull + 1 } := by
  unfold onSegment target deliver
  cases hsyn : seg.freshSyn with
  | true =>
      simp only [if_true, AList.lookup_erase]
      by_cases hfull : (t.conns.erase (keyOf seg.src seg.dst)).entries.length ≥ t.maxConns
      · simp only [hfull, if_true]
      · simp only [hfull, if_false, Table.insert_erase]
        rfl
  | false =>
      simp only [Bool.false_eq_true, if_false]
      cases hfound : t.conns.lookup (keyOf seg.src seg.dst) with
      | some c => rfl
      | none =>
          by_cases hfull : t.conns.entries.length ≥ t.maxConns
          · simp only [hfull, if_true, Table.erase_of_none hfound]
          · simp only [hfull, if_false]
            rfl

theorem same_limits_perform (t : Tracker) (op : TrackerOp) : SameLimits t (t.perform op) := by
  cases op with
  | tick nowUs => exact ⟨rfl, rfl, rfl, rfl⟩
  | segment seg nowUs =>
      show SameLimits t (t.onSegment seg nowUs)
      rw [on_segment_eq]
      split <;> exact ⟨rfl, rfl, rfl, rfl⟩

omit [HuffmanDecoding] in
/-- A segment goes to the connection that it continues, or opens one beside the others. -/
theorem target_eq (t : Tracker) (seg : EthSegment) (nowUs : Nat) :
    t.target seg nowUs =
      ((if seg.freshSyn then none else t.conns.lookup (keyOf seg.src seg.dst)).or
        (if (t.conns.erase (keyOf seg.src seg.dst)).entries.length < t.maxConns then
          some (t.openConn seg nowUs) else none)) := by
  unfold target
  cases hsyn : seg.freshSyn with
  | true =>
      simp only [if_true, AList.lookup_erase, Option.none_or, ge_iff_le, ← not_lt, ite_not]
  | false =>
      simp only [Bool.false_eq_true, if_false]
      cases hfound : t.conns.lookup (keyOf seg.src seg.dst) with
      | some found => rfl
      | none =>
          simp only [Table.erase_of_none hfound, Option.none_or, ge_iff_le, ← not_lt, ite_not]

omit [HuffmanDecoding] in
/-- There is room for the target of a segment beside the other connections. -/
theorem room_of_target {t : Tracker} (h : t.conns.entries.length ≤ t.maxConns) {seg : EthSegment}
    {nowUs : Nat} {c : TrackedConn} (htarget : t.target seg nowUs = some c) :
    (t.conns.erase (keyOf seg.src seg.dst)).entries.length < t.maxConns := by
  rw [target_eq] at htarget
  by_contra hfull
  rw [if_neg hfull, Option.or_none] at htarget
  split at htarget
  · cases htarget
  · have hlength := Table.length_erase_of_some htarget
    omega

/-- A connection after a segment is another one, or what became of the target. -/
theorem lookup_on_segment_cases {t : Tracker} {seg : EthSegment} {nowUs : Nat} {k : Key}
    {c : TrackedConn} (h : (t.onSegment seg nowUs).conns.lookup k = some c) :
    t.conns.lookup k = some c ∨ k = keyOf seg.src seg.dst ∧ ∃ target,
      t.target seg nowUs = some target ∧ c = { target with
        toConn :=
          (target.toConn.onSegment (seg.src == target.client) seg.toTcpSegment nowUs).1 } := by
  by_cases hk : k = keyOf seg.src seg.dst
  · subst hk
    cases htarget : t.target seg nowUs with
    | none =>
        rw [lookup_on_segment_of_none htarget] at h
        cases h
    | some target =>
        rw [lookup_on_segment htarget] at h
        exact Or.inr ⟨rfl, target, rfl, (Option.some.inj h).symm⟩
  · rw [lookup_on_segment_ne t nowUs hk] at h
    exact Or.inl h

/-- A segment. -/
theorem Bounded.on_segment {t : Tracker} (h : t.Bounded) (seg : EthSegment) (nowUs : Nat) :
    (t.onSegment seg nowUs).Bounded := by
  have hlimit : (t.onSegment seg nowUs).tableLimit = t.tableLimit :=
    (same_limits_perform t (.segment seg nowUs)).tableLimit
  have htarget : ∀ {target}, t.target seg nowUs = some target →
      target.toConn.Within t.tableLimit ∧
        keyOf target.client target.server = keyOf seg.src seg.dst := by
    intro target htarget
    rcases target_cases htarget with ⟨-, hfound⟩ | ⟨rfl, -⟩
    · exact ⟨h.within _ _ hfound, h.filed _ _ hfound⟩
    · exact ⟨Conn.within_new _ _ _, key_of_open_conn t seg nowUs⟩
  refine ⟨?_, fun k c hc => ?_, fun k c hc => ?_⟩
  · rw [on_segment_eq]
    split
    · next hsome =>
        have hroom := room_of_target h.room hsome
        show (t.conns.insert _ _).entries.length ≤ t.maxConns
        rw [Table.length_insert]
        omega
    · exact (Table.length_erase_le _ _).trans h.room
  · rw [hlimit]
    rcases lookup_on_segment_cases hc with hold | ⟨-, target, hsome, rfl⟩
    · exact h.within k c hold
    · intro side
      show ((target.toConn.onSegment _ _ _).1.dirs side).dec.Within t.tableLimit
      rw [Conn.dirs_on_segment]
      exact Direction.within_on_segment (htarget hsome).1 _ _ _ side
  · rcases lookup_on_segment_cases hc with hold | ⟨rfl, target, hsome, rfl⟩
    · exact h.filed k c hold
    · exact (htarget hsome).2

/-- A tick. -/
theorem Bounded.tick {t : Tracker} (h : t.Bounded) (nowUs : Nat) : (t.tick nowUs).Bounded where
  room := (List.length_filterMap_le _ _).trans h.room
  within := by
    intro k c hc
    obtain ⟨before, hbefore, rfl⟩ := exists_of_lookup_tick hc
    intro side
    have hdir := Direction.within_perform (h.within k before hbefore side) (.tick nowUs)
    cases side <;> exact hdir
  filed := by
    intro k c hc
    obtain ⟨before, hbefore, rfl⟩ := exists_of_lookup_tick hc
    exact h.filed k before hbefore

theorem Bounded.perform {t : Tracker} (h : t.Bounded) (op : TrackerOp) :
    (t.perform op).Bounded := by
  cases op with
  | segment seg nowUs => exact h.on_segment seg nowUs
  | tick nowUs => exact h.tick nowUs

/-- Any run. -/
theorem Bounded.after {t : Tracker} (h : t.Bounded) (ops : List TrackerOp) :
    (t.after ops).Bounded ∧ SameLimits t (t.after ops) := by
  induction ops generalizing t with
  | nil => exact ⟨h, .refl t⟩
  | cons op ops ih =>
      obtain ⟨hbounded, hsame⟩ := ih (h.perform op)
      exact ⟨hbounded, (same_limits_perform t op).trans hsame⟩

end Tracker

variable [HuffmanDecoding]

/-- After any segments and ticks, the tracker holds at most `max_conns` connections, the dynamic
table of each of their directions takes at most the limit of a table, and so all of them at most
twice the limit for each connection. -/
theorem memory_bounded (serverPorts : List UInt16) (maxConns idleSecs tableLimit : Nat)
    (ops : List TrackerOp) :
    let t := (Tracker.new serverPorts maxConns idleSecs tableLimit).after ops
    t.conns.entries.length ≤ maxConns ∧
      (∀ k c, t.conns.lookup k = some c → ∀ isC2s,
        totalSize Field.size (c.dir isC2s).dir.dec.table ≤ tableLimit) ∧
      Table.total (fun c => c.tableBytes) t.conns ≤ 2 * tableLimit * maxConns := by
  intro t
  obtain ⟨hbounded, hsame⟩ :=
    (Tracker.bounded_new serverPorts maxConns idleSecs tableLimit).after ops
  have hconns : t.conns.entries.length ≤ maxConns :=
    hbounded.room.trans (le_of_eq hsame.maxConns)
  have hwithin : ∀ k c, t.conns.lookup k = some c → c.toConn.Within tableLimit := by
    intro k c hc
    have hlimit : t.tableLimit = tableLimit := hsame.tableLimit
    exact hlimit ▸ hbounded.within k c hc
  have htables : Table.total (fun c => c.tableBytes) t.conns ≤
      2 * tableLimit * t.conns.entries.length :=
    Table.total_le _ fun k c hc => (hwithin k c hc).table_bytes_le
  refine ⟨hconns, fun k c hc isC2s => ?_, htables.trans (Nat.mul_le_mul_left _ hconns)⟩
  exact le_of_eq_of_le (hwithin k c hc isC2s).accounted.size_eq.symm (hwithin k c hc isC2s).size_le

/-! ## Snapshots -/

omit [HuffmanDecoding] in
/-- What a snapshot records of a table is of the same size. -/
theorem total_size_restored_fields (table : List Field) :
    totalSize Field.size (restoredFields table) = totalSize Field.size table := by
  unfold restoredFields totalSize
  rw [List.map_map, List.map_map]
  congr 1
  refine List.map_congr_left fun f _ => ?_
  simp only [Function.comp, Entry.field, Entry.ofField, to_bytes_from_bytes, Field.new, Field.size]

/-- A recorded direction that can be restored: its entries add up to the recorded size and fit the
recorded capacity, which is within the limit if the direction is usable. -/
structure DirSnapshot.Restorable (limit : Nat) (s : DirSnapshot) : Prop where
  size_eq : totalSize Field.size s.fields = s.tableSize
  size_le : s.tableSize ≤ s.maxTableSize
  within : s.usable = true → s.maxTableSize ≤ limit

omit [HuffmanDecoding] in
theorem restorable_dir_snapshot {limit : Nat} {track : DirTrack}
    (h : track.dir.dec.Within limit) (name : String) (src dst : SocketAddr)
    (ringOldestUs : Option Nat) :
    (dirSnapshot name src dst track ringOldestUs).Restorable limit where
  size_eq := (total_size_restored_fields track.dir.dec.table).trans h.accounted.size_eq.symm
  size_le := h.accounted.size_le
  within := by
    intro husable
    obtain ⟨hreason, -⟩ := Bool.and_eq_true_iff.mp husable
    -- a table above the limit is the first reason to refuse a direction
    have hover : track.dir.dec.overLimit = false := by
      have hnone := dir_reason_eq_none_iff.mp (Option.isNone_iff_eq_none.mp hreason)
      exact Bool.eq_false_iff.mpr fun hover => hnone (Or.inl hover)
    exact (h.accounted.track_le hover).trans (le_of_eq h.limit_eq)

/-- After any segments and ticks, a snapshot has at most `max_conns` connections, each of which is
counted as usable or as degraded. Each has both directions, between the same two addresses, and each
of these can be restored. -/
theorem snapshot_restorable (serverPorts : List UInt16) (maxConns idleSecs tableLimit : Nat)
    (ops : List TrackerOp) (ringOldestUs : Option Nat) :
    let t := (Tracker.new serverPorts maxConns idleSecs tableLimit).after ops
    let snap := t.snapshot ringOldestUs
    snap.1.length ≤ maxConns ∧ snap.2.1 + snap.2.2 = snap.1.length ∧
      ∀ conn ∈ snap.1,
        conn.dirs.map (fun s => (s.dir, s.src, s.dst)) =
          [("c2s", conn.client, conn.server), ("s2c", conn.server, conn.client)] ∧
        ∀ s ∈ conn.dirs, s.Restorable tableLimit := by
  intro t snap
  obtain ⟨hbounded, hsame⟩ :=
    (Tracker.bounded_new serverPorts maxConns idleSecs tableLimit).after ops
  refine ⟨?_, ?_, ?_⟩
  · show ((t.conns.entries.map Sigma.snd).map _).length ≤ maxConns
    rw [List.length_map, List.length_map]
    exact hbounded.room.trans (le_of_eq hsame.maxConns)
  · have hcount := List.length_eq_countP_add_countP (fun conn : ConnSnapshot =>
      conn.dirs.all (·.usable)) (l := snap.1)
    simp only [Bool.not_eq_true, Bool.decide_eq_false] at hcount
    exact hcount.symm
  · intro conn hconn
    obtain ⟨c, hc, rfl⟩ := List.mem_map.mp hconn
    obtain ⟨e, he, rfl⟩ := List.mem_map.mp hc
    have hwithin : e.2.toConn.Within tableLimit := by
      have hentry := Table.forall_lookup_iff.mp hbounded.within e he
      rwa [hsame.tableLimit] at hentry
    refine ⟨rfl, fun s hs => ?_⟩
    rcases List.mem_pair.mp hs with rfl | rfl
    · exact restorable_dir_snapshot (hwithin true) _ _ _ _
    · exact restorable_dir_snapshot (hwithin false) _ _ _ _

end H2Tap
