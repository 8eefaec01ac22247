import H2Tap.Lib.Run
import H2Tap.Hpack.DecodeLoop

/-!
# The accounting of the dynamic table over any run

`hpack.rs`. `Accounted` holds of a decoder however it was started, and every call keeps it: header
blocks of any bytes, blocks that fail in the middle included, capacities from SETTINGS, tracking
limits and resets. `evictions` lists the subtractions that `evict` makes, since the natural numbers
of the model do not underflow; they are all defined, because the size counts at least the entry that
is dropped.
-/

namespace H2Tap

open Lib

namespace Decoder

/-! ## What `evict` subtracts -/

/-- The size and the size of the dropped entry at each subtraction of `evict`. -/
def evictions (d : Decoder) : List (Nat × Nat) :=
  if d.size > d.maxSize then
    match _h : d.table.getLast? with
    | some f =>
        (d.size, f.size) ::
          evictions
            { d with
              table := d.table.dropLast
              size := d.size - f.size
              exact := d.exact || d.capacityObserved }
    | none => []
  else []
termination_by d.table.length
decreasing_by
  have hne : d.table ≠ [] := by
    rintro hnil
    simp [hnil] at _h
  have := List.length_pos_iff.mpr hne
  simp only [List.length_dropLast]
  omega

/-- No subtraction of `evict` underflows. -/
theorem evictions_defined {d : Decoder} (hsize : d.size = totalSize Field.size d.table) :
    ∀ s ∈ d.evictions, s.2 ≤ s.1 := by
  induction d using evictions.induct with
  | case1 d hover f hlast ih =>
      have htable : d.table = d.table.dropLast ++ [f] :=
        (List.dropLast_append_getLast? f hlast).symm
      have htotal : d.size = totalSize Field.size d.table.dropLast + f.size := by
        rw [hsize]
        conv_lhs => rw [htable]
        simp
      have hcons : d.evictions = (d.size, f.size) :: evictions
          { d with
            table := d.table.dropLast
            size := d.size - f.size
            exact := d.exact || d.capacityObserved } := by
        rw [evictions, if_pos hover]
        split
        · next g hg =>
            rw [hlast] at hg
            cases hg
            rfl
        · next hnone =>
            rw [hlast] at hnone
            cases hnone
      rw [hcons, List.forall_mem_cons]
      exact ⟨by simp only; omega, ih (by simp only; omega)⟩
  | case2 d hover hlast =>
      rw [evictions, if_pos hover]
      split
      · next f hf =>
          rw [hlast] at hf
          cases hf
      · simp
  | case3 d hover =>
      rw [evictions, if_neg hover]
      simp

/-- Those of `resize`. -/
def resizeEvictions (d : Decoder) (n : Nat) : List (Nat × Nat) :=
  evictions { d with capacityObserved := true, maxSize := n }

/-- Those of `insert`. -/
def insertEvictions (d : Decoder) (f : Field) : List (Nat × Nat) :=
  if d.overLimit then []
  else if f.size > d.maxSize then []
  else evictions { d with size := d.size + f.size, table := f :: d.table }

/-- Those of `apply_peer_capacity`. -/
def applyPeerCapacityEvictions (d : Decoder) (n : Nat) : List (Nat × Nat) :=
  if n < d.maxSize then resizeEvictions { d with capacityObserved := true } n else []

theorem Accounted.count_unresolved {d : Decoder} (h : d.Accounted) : d.countUnresolved.Accounted :=
  ⟨h.size_eq, h.size_le, h.track_le, h.over_empty⟩

theorem resize_evictions_defined {d : Decoder} (h : d.Accounted) (n : Nat) :
    ∀ s ∈ d.resizeEvictions n, s.2 ≤ s.1 := evictions_defined h.size_eq

theorem insert_evictions_defined {d : Decoder} (h : d.Accounted) (f : Field) :
    ∀ s ∈ d.insertEvictions f, s.2 ≤ s.1 := by
  unfold insertEvictions
  split
  · simp
  · split
    · simp
    · refine evictions_defined ?_
      rw [totalSize_cons, h.size_eq, Nat.add_comm]

variable [HuffmanDecoding]

/-- Those of one iteration of the decode loop: a literal that is inserted, or a size update. -/
def repEvictions (d : Decoder) : Bytes → List (Nat × Nat)
  | [] => []
  | first :: tail =>
      if first &&& 0x80 ≠ 0 then []
      else if first &&& 0xc0 = 0x40 then
        match d.readLiteral (first :: tail) 6 with
        | (_, .error _) => []
        | (d, .ok (f, _)) => d.insertEvictions f
      else if first &&& 0xe0 = 0x20 then
        match readInt (first :: tail) 5 with
        | .error _ => []
        | .ok (n, _) => d.resizeEvictions n
      else []

/-- Those of `decode`. -/
def decodeEvictions (d : Decoder) (block : Bytes) : List (Nat × Nat) :=
  (d.iterations block).flatMap fun s => s.1.repEvictions s.2

theorem Accounted.read_literal {d d' : Decoder} {b : Bytes} {width : Nat}
    {r : Except HpackError (Field × Bytes)} (h : d.Accounted)
    (hlit : d.readLiteral b width = (d', r)) :
    d'.Accounted := by
  rcases read_literal_frame hlit with rfl | rfl
  · exact h
  · exact h.count_unresolved

theorem Accounted.decode_rep {d : Decoder} (h : d.Accounted) (first : UInt8) (b : Bytes) :
    (d.decodeRep first b).1.Accounted :=
  decode_rep_preserves (fun _ h => h.count_unresolved) (fun _ f h => h.insert f)
    (fun _ n h => h.resize n) h

/-- Every block keeps the accounting, whether it ends in an error or not. -/
theorem Accounted.decode {d : Decoder} (h : d.Accounted) (block : Bytes) :
    (d.decode block).1.Accounted :=
  decode_preserves (G := fun _ _ => True)
    (fun _ first tail h _ => h.decode_rep first (first :: tail))
    (fun _ _ => trivial) h

/-- The accounting holds at the start of every iteration. -/
theorem Accounted.iterations {d : Decoder} {block : Bytes} (h : d.Accounted) :
    ∀ s ∈ d.iterations block, s.1.Accounted := by
  induction d, block using iterations.induct with
  | case1 d =>
      rw [Decoder.iterations]
      simp
  | case2 d first tail ih =>
      have hnext := h.decode_rep first (first :: tail)
      rw [Decoder.iterations]
      intro s hs
      rcases List.mem_cons.mp hs with rfl | hs
      · exact h
      · split at hs
        · cases hs
        · next d' f rest hrep =>
            rw [hrep] at hnext
            exact ih d' f rest hrep hnext s hs

theorem rep_evictions_defined {d : Decoder} (h : d.Accounted) (b : Bytes) :
    ∀ s ∈ d.repEvictions b, s.2 ≤ s.1 := by
  unfold repEvictions
  split
  · simp
  · split
    · simp
    · split
      · split
        · simp
        · next hlit => exact insert_evictions_defined (h.read_literal hlit) _
      · split
        · split
          · simp
          · exact resize_evictions_defined h _
        · simp

theorem decode_evictions_defined {d : Decoder} (h : d.Accounted) (block : Bytes) :
    ∀ s ∈ d.decodeEvictions block, s.2 ≤ s.1 := by
  intro s hs
  obtain ⟨iteration, hiteration, hs⟩ := List.mem_flatMap.mp hs
  exact rep_evictions_defined (h.iterations iteration hiteration) _ s hs

end Decoder

/-! ## Runs -/

/-- A call that changes the dynamic table. -/
inductive TableOp where
  | decode (block : Bytes)
  | applyPeerCapacity (n : Nat)
  | setTrackLimit (n : Nat)
  | resetPartial
  deriving DecidableEq

namespace Decoder

/-- The ways to start a decoder. A capacity is a `usize`, and a restored table fits it. -/
def Started (d : Decoder) : Prop :=
  d = newPartial ∨ d = newExact ∨ ∃ entries maxSize, maxSize ≤ usizeMax ∧
    totalSize Field.size entries ≤ maxSize ∧ d = fromEntries entries maxSize

theorem Started.accounted {d : Decoder} (h : d.Started) : d.Accounted := by
  rcases h with rfl | rfl | ⟨entries, maxSize, hmax, hfits, rfl⟩
  · exact new_partial_accounted
  · exact new_exact_accounted
  · exact from_entries_accounted hfits hmax

/-- The four facts about the size. -/
structure SizeRight (d : Decoder) : Prop where
  size_eq : d.size = (d.table.map Field.size).sum
  size_le_max : d.size ≤ d.maxSize
  size_le_limit : d.size ≤ d.trackLimit
  over_empty : d.overLimit = true → d.table = []

theorem Accounted.size_right {d : Decoder} (h : d.Accounted) : d.SizeRight := by
  refine ⟨h.size_eq, h.size_le, ?_, h.over_empty⟩
  cases hover : d.overLimit with
  | true =>
      rw [h.size_eq, h.over_empty hover]
      exact Nat.zero_le _
  | false => exact h.size_le.trans (h.track_le hover)

variable [HuffmanDecoding]

/-- The decoder after a call, and the subtractions that `evict` made. -/
def performTable (d : Decoder) : TableOp → Decoder × List (Nat × Nat)
  | .decode block => ((d.decode block).1, d.decodeEvictions block)
  | .applyPeerCapacity n => (d.applyPeerCapacity n, d.applyPeerCapacityEvictions n)
  | .setTrackLimit n => (d.setTrackLimit n, [])
  | .resetPartial => (d.resetPartial, [])

/-- Every call keeps the accounting and makes only defined subtractions. -/
theorem Accounted.perform_table {d : Decoder} (h : d.Accounted) (op : TableOp) :
    (d.performTable op).1.Accounted ∧ ∀ s ∈ (d.performTable op).2, s.2 ≤ s.1 := by
  cases op with
  | decode block => exact ⟨h.decode block, decode_evictions_defined h block⟩
  | applyPeerCapacity n =>
      refine ⟨h.apply_peer_capacity n, ?_⟩
      show ∀ s ∈ d.applyPeerCapacityEvictions n, s.2 ≤ s.1
      unfold applyPeerCapacityEvictions
      split
      · exact evictions_defined h.size_eq
      · simp
  | setTrackLimit n => exact ⟨h.set_track_limit n, by simp [performTable]⟩
  | resetPartial => exact ⟨h.of_reset, by simp [performTable]⟩

end Decoder

open Decoder

/-- In every state that a decoder reaches, its size is that of its entries and within the capacity
and the tracking limit, a table over the limit is empty, and no subtraction of `evict` underflowed
on the way. -/
theorem table_accounting [HuffmanDecoding] {d : Decoder} (hstart : d.Started) (ops : List TableOp) :
    Always performTable SizeRight d ops ∧ ∀ subtractions ∈ (run performTable d ops).2,
      ∀ s ∈ subtractions, s.2 ≤ s.1 := by
  constructor
  · have halways : Always performTable Accounted d ops :=
      Guarded.always (G := fun _ _ => True) (fun d op h _ => (h.perform_table op).1)
        hstart.accounted (guarded_true _ _)
    exact halways.imp fun d h => h.size_right
  · exact (run_invariant performTable (Q := fun subtractions => ∀ s ∈ subtractions, s.2 ≤ s.1)
      (fun d op h _ => h.perform_table op) hstart.accounted (guarded_true _ _)).2

/-- A table of one entry that is lowered by SETTINGS, after a block that fails in the middle. -/
theorem table_accounting_restored :
    let _ := noHuffman.toHuffmanDecoding
    let d := fromEntries [Field.new (asciiBytes "a") (asciiBytes "b")] 100
    let ops : List TableOp := [.decode [0x40, 1, 0x61, 1, 0x62, 0x80], .applyPeerCapacity 40,
      .setTrackLimit 10, .resetPartial]
    Always performTable SizeRight d ops ∧ ∀ subtractions ∈ (run performTable d ops).2,
      ∀ s ∈ subtractions, s.2 ≤ s.1 := by
  intro _
  exact table_accounting (Or.inr (Or.inr ⟨_, 100, by decide, by decide, rfl⟩)) _

end H2Tap
