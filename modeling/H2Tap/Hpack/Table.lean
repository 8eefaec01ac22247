import H2Tap.Lib.FitPrefix
import H2Tap.Hpack.Decoder

/-!
# The decoder's dynamic table as a size-bounded table

`Accounted` says that `size` is the total size of the entries and within the capacity, and that a
table over the tracking limit is empty. Under it, `evict`, `insert` and `resize` keep exactly the
longest prefix that fits (`insert_table`, `resize_table`), and `insert_exact` and `resize_exact` say
on what evidence each of them declares the table exact.
-/

namespace H2Tap.Decoder

open Lib

/-! ## What each table operation leaves alone -/

/-- Over its capacity, `evict` drops the oldest entry and goes on. -/
theorem evict_of_last {d : Decoder} {f : Field} (hover : d.size > d.maxSize)
    (hlast : d.table.getLast? = some f) :
    d.evict = { d with
      table := d.table.dropLast
      size := d.size - f.size
      exact := d.exact || d.capacityObserved }.evict := by
  rw [evict, if_pos hover]
  split
  · next hlast' =>
      rw [hlast] at hlast'
      cases hlast'
      rfl
  · next hnone => simp [hlast] at hnone

/-- Without entries `evict` does nothing. -/
theorem evict_of_no_last {d : Decoder} (hlast : d.table.getLast? = none) : d.evict = d := by
  rw [evict]
  split
  · split
    · next hlast' => simp [hlast] at hlast'
    · rfl
  · rfl

/-- Within its capacity `evict` does nothing. -/
theorem evict_of_fits {d : Decoder} (hfits : ¬ d.size > d.maxSize) : d.evict = d := by
  rw [evict, if_neg hfits]

/-- `evict` drops entries from the tail and may set `exact` at an observed capacity. -/
theorem evict_frame (d : Decoder) : ∃ table size exact,
    d.evict = { d with table := table, size := size, exact := exact } ∧ table <+: d.table ∧
      (exact = true → d.exact = true ∨ d.capacityObserved = true) := by
  induction d using evict.induct with
  | case1 d hover f hlast ih =>
      obtain ⟨table, size, exact, heq, hpre, hexact⟩ := ih
      refine ⟨table, size, exact, ?_, hpre.trans (List.dropLast_prefix _), ?_⟩
      · rw [evict_of_last hover hlast]
        exact heq
      · intro h
        cases hobs : d.capacityObserved with
        | true => exact Or.inr rfl
        | false => simpa [hobs] using hexact h
  | case2 d hover hlast =>
      exact ⟨d.table, d.size, d.exact, evict_of_no_last hlast, List.prefix_refl _, Or.inl⟩
  | case3 d hover =>
      exact ⟨d.table, d.size, d.exact, evict_of_fits hover, List.prefix_refl _, Or.inl⟩

@[simp] theorem evict_maxSize (d : Decoder) : d.evict.maxSize = d.maxSize := by
  obtain ⟨_, _, _, h, -⟩ := d.evict_frame; rw [h]

@[simp] theorem evict_capacityObserved (d : Decoder) :
    d.evict.capacityObserved = d.capacityObserved := by
  obtain ⟨_, _, _, h, -⟩ := d.evict_frame; rw [h]

@[simp] theorem evict_overLimit (d : Decoder) : d.evict.overLimit = d.overLimit := by
  obtain ⟨_, _, _, h, -⟩ := d.evict_frame; rw [h]

@[simp] theorem evict_trackLimit (d : Decoder) : d.evict.trackLimit = d.trackLimit := by
  obtain ⟨_, _, _, h, -⟩ := d.evict_frame; rw [h]

@[simp] theorem evict_unresolved (d : Decoder) : d.evict.unresolved = d.unresolved := by
  obtain ⟨_, _, _, h, -⟩ := d.evict_frame; rw [h]

theorem evict_table_isPrefix (d : Decoder) : d.evict.table <+: d.table := by
  obtain ⟨_, _, _, h, hpre, -⟩ := d.evict_frame; rw [h]; exact hpre

/-- With an accurate size, `evict` keeps the longest prefix within the capacity and declares the
table exact when it had to drop an entry at an observed capacity. -/
theorem evict_eq (d : Decoder) (hsize : d.size = totalSize Field.size d.table) :
    d.evict = { d with
      table := fitPrefix Field.size d.maxSize d.table
      size := totalSize Field.size (fitPrefix Field.size d.maxSize d.table)
      exact := d.exact || (d.capacityObserved && decide (d.maxSize < d.size)) } := by
  induction d using evict.induct with
  | case1 d hover f hlast ih =>
      have htable : d.table = d.table.dropLast ++ [f] :=
        (List.dropLast_append_getLast? f hlast).symm
      have htotal : d.size = totalSize Field.size d.table.dropLast + f.size := by
        rw [hsize]
        conv_lhs => rw [htable]
        simp
      have hfit : fitPrefix Field.size d.maxSize d.table =
          fitPrefix Field.size d.maxSize d.table.dropLast := by
        conv_lhs => rw [htable]
        apply fitPrefix_concat
        rw [← htable, ← hsize]
        exact hover
      rw [evict_of_last hover hlast, ih (by simp only; omega)]
      have hover' : decide (d.maxSize < d.size) = true := decide_eq_true hover
      simp only [hfit, hover', Bool.and_true, mk.injEq, true_and, and_true]
      cases d.capacityObserved <;> simp
  | case2 d hover hlast =>
      have hnil : d.table = [] := by
        simpa using hlast
      rw [hnil, totalSize_nil] at hsize
      omega
  | case3 d hover =>
      have hfits : totalSize Field.size d.table ≤ d.maxSize := by omega
      have hover' : decide (d.maxSize < d.size) = false := decide_eq_false hover
      rw [evict_of_fits hover, fitPrefix_of_totalSize_le hfits, ← hsize, hover']
      simp

/-! ## The accounting invariant -/

/-- The size is that of the entries and within the capacity and, for a tracked table, the limit; an
untracked table is empty. -/
structure Accounted (d : Decoder) : Prop where
  size_eq : d.size = totalSize Field.size d.table
  size_le : d.size ≤ d.maxSize
  track_le : d.overLimit = false → d.maxSize ≤ d.trackLimit
  over_empty : d.overLimit = true → d.table = []

theorem new_partial_accounted : newPartial.Accounted := by
  constructor <;> simp [newPartial, defaultTableSize, usizeMax]

theorem new_exact_accounted : newExact.Accounted := by
  constructor <;> simp [newExact, newPartial, defaultTableSize, usizeMax]

/-- Entries that fit a capacity a `usize` can hold give an accounted table. -/
theorem from_entries_accounted {entries : List Field} {maxSize : Nat}
    (hfits : totalSize Field.size entries ≤ maxSize) (hmax : maxSize ≤ usizeMax) :
    (fromEntries entries maxSize).Accounted :=
  ⟨rfl, hfits, fun _ => hmax, fun h => by cases h⟩

namespace Accounted

variable {d : Decoder}

theorem of_reset (h : d.Accounted) : d.resetPartial.Accounted :=
  ⟨rfl, Nat.zero_le _, h.track_le, fun _ => rfl⟩

/-- `enforce_limit` re-establishes the limit whatever the capacity was before. -/
theorem enforce_limit (hsize : d.size = totalSize Field.size d.table) (hle : d.size ≤ d.maxSize)
    (hover : d.overLimit = true → d.table = []) : d.enforceLimit.Accounted := by
  unfold enforceLimit
  split
  · exact ⟨rfl, Nat.zero_le _, fun h => (by cases h), fun _ => rfl⟩
  · next hlimit => exact ⟨hsize, hle, fun _ => by omega, hover⟩

theorem set_track_limit (h : d.Accounted) (n : Nat) : (d.setTrackLimit n).Accounted :=
  enforce_limit h.size_eq h.size_le h.over_empty

theorem recheck_exact (h : d.Accounted) : d.recheckExact.Accounted := by
  unfold recheckExact
  split
  · exact h
  · split
    · exact ⟨h.size_eq, h.size_le, h.track_le, h.over_empty⟩
    · exact h

theorem resize (h : d.Accounted) (n : Nat) : (d.resize n).Accounted := by
  unfold Decoder.resize
  rw [evict_eq { d with capacityObserved := true, maxSize := n } h.size_eq]
  refine (enforce_limit rfl (totalSize_fitPrefix_le _ _) fun hover => ?_).recheck_exact
  simp only [h.over_empty hover, fitPrefix_nil]

theorem apply_peer_capacity (h : d.Accounted) (n : Nat) : (d.applyPeerCapacity n).Accounted := by
  have hset : Accounted { d with capacityObserved := true } :=
    ⟨h.size_eq, h.size_le, h.track_le, h.over_empty⟩
  unfold applyPeerCapacity
  split
  · exact hset.resize n
  · exact hset

theorem insert (h : d.Accounted) (f : Field) : (d.insert f).Accounted := by
  unfold Decoder.insert
  split
  · exact h
  · next hover =>
      split
      · exact ⟨rfl, Nat.zero_le _, h.track_le, fun _ => rfl⟩
      · rw [evict_eq { d with size := d.size + f.size, table := f :: d.table }
          (by simp [h.size_eq, Nat.add_comm])]
        refine recheck_exact ⟨rfl, totalSize_fitPrefix_le _ _, h.track_le, fun hover' => ?_⟩
        exact absurd hover' hover

end Accounted

/-! ## What insertion and resizing keep -/

/-- `recheck_exact` only sets `exact`, and only at an observed capacity that leaves less than the
smallest entry free. -/
theorem recheck_exact_eq (d : Decoder) : d.recheckExact = { d with
    exact := d.exact || (d.capacityObserved && !d.overLimit &&
      decide (d.maxSize < d.size + minEntrySize)) } := by
  obtain ⟨table, size, maxSize, exact, unresolved, observed, limit, overLimit⟩ := d
  cases observed <;> cases overLimit <;> cases exact <;>
    by_cases hfull : maxSize < size + minEntrySize <;> simp [recheckExact, hfull]

@[simp] theorem insert_maxSize (d : Decoder) (f : Field) : (d.insert f).maxSize = d.maxSize := by
  unfold insert
  split <;> [rfl; (split <;> [rfl; simp [recheck_exact_eq]])]

@[simp] theorem insert_capacityObserved (d : Decoder) (f : Field) :
    (d.insert f).capacityObserved = d.capacityObserved := by
  unfold insert
  split <;> [rfl; (split <;> [rfl; simp [recheck_exact_eq]])]

@[simp] theorem insert_overLimit (d : Decoder) (f : Field) :
    (d.insert f).overLimit = d.overLimit := by
  unfold insert
  split <;> [rfl; (split <;> [rfl; simp [recheck_exact_eq]])]

@[simp] theorem insert_trackLimit (d : Decoder) (f : Field) :
    (d.insert f).trackLimit = d.trackLimit := by
  unfold insert
  split <;> [rfl; (split <;> [rfl; simp [recheck_exact_eq]])]

@[simp] theorem insert_unresolved (d : Decoder) (f : Field) :
    (d.insert f).unresolved = d.unresolved := by
  unfold insert
  split <;> [rfl; (split <;> [rfl; simp [recheck_exact_eq]])]

/-- A tracked table keeps what fits of the entry followed by the old table. -/
theorem insert_table {d : Decoder} (h : d.Accounted) (f : Field) (hover : d.overLimit = false) :
    (d.insert f).table = fitPrefix Field.size d.maxSize (f :: d.table) := by
  unfold insert
  rw [if_neg (by simp [hover])]
  split
  · next hlarge =>
      have : ¬ f.size ≤ d.maxSize := by omega
      simp [fitPrefix, this]
  · rw [evict_eq { d with size := d.size + f.size, table := f :: d.table }
      (by simp [h.size_eq, Nat.add_comm]), recheck_exact_eq]

/-- The evidence on which inserting an entry declares a tracked table exact: the entry is larger
than the whole table, or, at an observed capacity, an entry was dropped or no entry could still
be added. -/
theorem insert_exact {d : Decoder} (h : d.Accounted) (f : Field) (hover : d.overLimit = false) :
    (d.insert f).exact = (d.exact || decide (d.maxSize < f.size) || (d.capacityObserved &&
      (decide (d.maxSize < totalSize Field.size (f :: d.table)) ||
        decide (d.maxSize < (d.insert f).size + minEntrySize)))) := by
  have hsum : totalSize Field.size (f :: d.table) = d.size + f.size := by
    rw [totalSize_cons, h.size_eq, Nat.add_comm]
  rw [hsum]
  unfold insert
  rw [if_neg (by simp [hover])]
  split
  · next hlarge => simp [decide_eq_true hlarge]
  · next hfits =>
      have hfits' : decide (d.maxSize < f.size) = false := by simpa using hfits
      rw [evict_eq { d with size := d.size + f.size, table := f :: d.table }
        (by simp [h.size_eq, Nat.add_comm]), recheck_exact_eq]
      simp only [hover, hfits', Bool.or_false, Bool.not_false, Bool.and_true]
      cases d.exact <;> cases d.capacityObserved <;> simp

@[simp] theorem resize_maxSize (d : Decoder) (n : Nat) : (d.resize n).maxSize = n := by
  unfold resize enforceLimit
  split <;> simp [recheck_exact_eq]

@[simp] theorem resize_capacityObserved (d : Decoder) (n : Nat) :
    (d.resize n).capacityObserved = true := by
  unfold resize enforceLimit
  split <;> simp [recheck_exact_eq]

@[simp] theorem resize_trackLimit (d : Decoder) (n : Nat) :
    (d.resize n).trackLimit = d.trackLimit := by
  unfold resize enforceLimit
  split <;> simp [recheck_exact_eq]

@[simp] theorem resize_unresolved (d : Decoder) (n : Nat) :
    (d.resize n).unresolved = d.unresolved := by
  unfold resize enforceLimit
  split <;> simp [recheck_exact_eq]

@[simp] theorem resize_overLimit (d : Decoder) (n : Nat) :
    (d.resize n).overLimit = (d.overLimit || decide (d.trackLimit < n)) := by
  unfold resize enforceLimit
  simp only [evict_maxSize, evict_trackLimit]
  split
  · next hlimit => simp [recheck_exact_eq, hlimit]
  · next hlimit => simp [recheck_exact_eq, hlimit]

/-- Resizing keeps what fits the new capacity, unless that is above the tracking limit. -/
theorem resize_table {d : Decoder} (h : d.Accounted) (n : Nat)
    (hover : (d.resize n).overLimit = false) :
    (d.resize n).table = fitPrefix Field.size n d.table := by
  have hlimit : ¬ d.trackLimit < n := by
    rw [resize_overLimit] at hover
    simp_all
  unfold resize
  rw [evict_eq { d with capacityObserved := true, maxSize := n } h.size_eq, enforceLimit,
    if_neg hlimit, recheck_exact_eq]

/-- The evidence on which resizing declares a tracked table exact. -/
theorem resize_exact {d : Decoder} (h : d.Accounted) (n : Nat)
    (hover : (d.resize n).overLimit = false) :
    (d.resize n).exact = (d.exact || decide (n < totalSize Field.size d.table) ||
      decide (n < (d.resize n).size + minEntrySize)) := by
  have hlimit : ¬ d.trackLimit < n := by
    rw [resize_overLimit] at hover
    simp_all
  have hold : d.overLimit = false := by
    rw [resize_overLimit] at hover
    simp_all
  unfold resize
  rw [evict_eq { d with capacityObserved := true, maxSize := n } h.size_eq, enforceLimit,
    if_neg hlimit, recheck_exact_eq]
  simp [hold, ← h.size_eq]

/-- A table that is known stays known. -/
theorem evict_exact_of_exact {d : Decoder} (h : d.exact = true) : d.evict.exact = true := by
  induction d using evict.induct with
  | case1 d hover f hlast ih =>
      rw [evict_of_last hover hlast]
      exact ih (by simp [h])
  | case2 d hover hlast => rwa [evict_of_no_last hlast]
  | case3 d hover => rwa [evict_of_fits hover]

theorem resize_exact_of_exact {d : Decoder} (h : d.exact = true) (n : Nat) :
    (d.resize n).exact = true := by
  have hevict := evict_exact_of_exact (d := { d with capacityObserved := true, maxSize := n }) h
  rw [resize, recheck_exact_eq, enforceLimit]
  split <;> simp [hevict]

theorem insert_exact_of_exact {d : Decoder} (h : d.exact = true) (f : Field) :
    (d.insert f).exact = true := by
  have hevict := evict_exact_of_exact
    (d := { d with size := d.size + f.size, table := f :: d.table }) h
  unfold insert
  split
  · exact h
  · split
    · rfl
    · simp [recheck_exact_eq, hevict]

/-- Inserting adds at most the new entry. -/
theorem insert_table_subset (d : Decoder) (f : Field) : (d.insert f).table ⊆ f :: d.table := by
  unfold insert
  split
  · exact List.subset_cons_self f d.table
  · split
    · exact List.nil_subset _
    · rw [recheck_exact_eq]
      exact (evict_table_isPrefix { d with size := d.size + f.size, table := f :: d.table }).subset

/-- Resizing only drops entries. -/
theorem resize_table_isPrefix (d : Decoder) (n : Nat) : (d.resize n).table <+: d.table := by
  have hevict := evict_table_isPrefix { d with capacityObserved := true, maxSize := n }
  unfold resize
  rw [recheck_exact_eq, enforceLimit]
  split
  · exact List.nil_prefix
  · exact hevict

theorem apply_peer_capacity_table_isPrefix (d : Decoder) (n : Nat) :
    (d.applyPeerCapacity n).table <+: d.table := by
  unfold applyPeerCapacity
  split
  · exact resize_table_isPrefix _ n
  · exact List.prefix_refl _

/-- A capacity from the peer's SETTINGS only ever lowers the decoder's. -/
@[simp] theorem apply_peer_capacity_maxSize (d : Decoder) (n : Nat) :
    (d.applyPeerCapacity n).maxSize = min n d.maxSize := by
  unfold applyPeerCapacity
  split
  · next hlt => simp [Nat.min_eq_left hlt.le]
  · next hge => simp only; omega

@[simp] theorem apply_peer_capacity_capacityObserved (d : Decoder) (n : Nat) :
    (d.applyPeerCapacity n).capacityObserved = true := by
  unfold applyPeerCapacity
  split <;> simp

end H2Tap.Decoder
