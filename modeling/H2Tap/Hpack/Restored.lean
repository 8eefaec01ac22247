import H2Tap.Snapshot
import H2Tap.Hpack.Table
import H2Tap.Hpack.DecodeLoop

/-!
# A decoder restored from a snapshot

A restored decoder differs from the one it was taken from in the count of unresolved references and
in the tracking limit. Neither is looked at as long as the limit is not exceeded: `retuned` changes
both, and commutes with every operation. `Watched` says what a decoder that has seen its connection
from the start keeps, so that `restored_eq` gives back all of it but these two.
-/

namespace H2Tap.Decoder

open Lib

/-- The decoder with `count` more unresolved references and another tracking limit. -/
def retuned (d : Decoder) (count limit : Nat) : Decoder :=
  { d with unresolved := d.unresolved + count, trackLimit := limit }

variable (d : Decoder) (count limit : Nat)

/-! ## Retuning commutes with the table operations -/

@[simp] theorem retuned_overLimit : (d.retuned count limit).overLimit = d.overLimit := rfl

@[simp] theorem retuned_isExact : (d.retuned count limit).isExact = d.isExact := rfl

@[simp] theorem retuned_unresolved :
    (d.retuned count limit).unresolved = d.unresolved + count := rfl

theorem evict_retuned : (d.retuned count limit).evict = d.evict.retuned count limit := by
  induction d using evict.induct with
  | case1 d hover f hlast ih =>
      rw [evict_of_last (d := d) hover hlast,
        evict_of_last (d := d.retuned count limit) hover hlast]
      exact ih
  | case2 d hover hlast =>
      rw [evict_of_no_last (d := d) hlast, evict_of_no_last (d := d.retuned count limit) hlast]
  | case3 d hover =>
      rw [evict_of_fits (d := d) hover, evict_of_fits (d := d.retuned count limit) hover]

theorem recheck_exact_retuned :
    (d.retuned count limit).recheckExact = d.recheckExact.retuned count limit := by
  rw [recheck_exact_eq, recheck_exact_eq]
  rfl

theorem insert_retuned (f : Field) :
    (d.retuned count limit).insert f = (d.insert f).retuned count limit := by
  by_cases hover : d.overLimit = true
  · rw [insert, insert, retuned_overLimit, if_pos hover, if_pos hover]
  · rw [insert, insert, retuned_overLimit, if_neg hover, if_neg hover]
    by_cases hlarge : f.size > d.maxSize
    · rw [if_pos hlarge, if_pos (show f.size > (d.retuned count limit).maxSize from hlarge)]
      rfl
    · rw [if_neg hlarge, if_neg (show ¬ f.size > (d.retuned count limit).maxSize from hlarge),
        ← recheck_exact_retuned, ← evict_retuned]
      rfl

/-- Resizing is the one operation that looks at the limit. -/
theorem resize_retuned {d : Decoder} {count limit : Nat} (n : Nat) (hlimit : limit ≤ d.trackLimit)
    (hwithin : ((d.retuned count limit).resize n).overLimit = false) :
    (d.retuned count limit).resize n = (d.resize n).retuned count limit := by
  have hn : ¬ limit < n := by
    rw [resize_overLimit, Bool.or_eq_false_iff] at hwithin
    exact of_decide_eq_false hwithin.2
  have hwide : ¬ d.trackLimit < n := by omega
  have hevict := evict_retuned { d with capacityObserved := true, maxSize := n } count limit
  have hstart : ({ d.retuned count limit with capacityObserved := true, maxSize := n } : Decoder) =
      ({ d with capacityObserved := true, maxSize := n } : Decoder).retuned count limit := rfl
  rw [resize, resize, hstart, hevict, enforceLimit, enforceLimit, if_neg, if_neg,
    recheck_exact_retuned]
  · simpa using hwide
  · simpa [retuned] using hn

/-! ## Retuning commutes with decoding -/

theorem resolve_retuned (index : Nat) : (d.retuned count limit).resolve index =
    ((d.resolve index).1.retuned count limit, (d.resolve index).2) := by
  have hlookup : (d.retuned count limit).lookup index = d.lookup index := rfl
  simp only [resolve, hlookup, retuned_isExact]
  cases d.lookup index with
  | some f => rfl
  | none =>
      by_cases hexact : d.isExact = true
      · simp only [hexact, if_true]
      · simp only [hexact, Bool.false_eq_true, if_false, placeholder, retuned, Nat.add_right_comm]

variable [HuffmanDecoding]

theorem read_value_retuned (name : Bytes) (unknown : Bool) (b : Bytes) :
    (d.retuned count limit).readValue name unknown b =
      ((d.readValue name unknown b).1.retuned count limit, (d.readValue name unknown b).2) := by
  unfold readValue
  split <;> rfl

theorem read_literal_retuned (b : Bytes) (width : Nat) :
    (d.retuned count limit).readLiteral b width =
      ((d.readLiteral b width).1.retuned count limit, (d.readLiteral b width).2) := by
  unfold readLiteral
  split
  · rfl
  · next index b' hint =>
      split
      · split
        · rfl
        · exact read_value_retuned d count limit _ _ _
      · rw [resolve_retuned]
        rcases d.resolve index with ⟨d', e | f⟩
        · rfl
        · exact read_value_retuned d' count limit _ _ _

/-- One iteration of the decode loop, within the limit. -/
theorem decode_rep_retuned {d : Decoder} {count limit : Nat} (first : UInt8) (b : Bytes)
    (hlimit : limit ≤ d.trackLimit)
    (hwithin : ((d.retuned count limit).decodeRep first b).1.overLimit = false) :
    (d.retuned count limit).decodeRep first b =
      ((d.decodeRep first b).1.retuned count limit, (d.decodeRep first b).2) := by
  revert hwithin
  unfold decodeRep
  split
  · intro _
    split
    · rfl
    · split
      · rfl
      · rw [resolve_retuned]
        rcases d.resolve _ with ⟨d', e | f⟩ <;> rfl
  · split
    · intro _
      rw [read_literal_retuned]
      rcases d.readLiteral b 6 with ⟨d', e | ⟨f, rest⟩⟩
      · rfl
      · simp only [insert_retuned]
    · split
      · split
        · exact fun _ => rfl
        · intro hwithin
          simp only [resize_retuned _ hlimit hwithin]
      · split
        all_goals
          intro _
          rw [read_literal_retuned]
          rcases d.readLiteral b 4 with ⟨d', e | ⟨f, rest⟩⟩ <;> rfl

/-- An iteration leaves the tracking limit alone, and a decoder over it stays so. -/
theorem decode_rep_limit {d d' : Decoder} {first : UInt8} {b : Bytes}
    {r : Except HpackError (Option Field × Bytes)} (h : d.decodeRep first b = (d', r)) :
    d'.trackLimit = d.trackLimit ∧ (d'.overLimit = false → d.overLimit = false) := by
  have hframe : ∀ {d' : Decoder}, d' = d ∨ d' = d.countUnresolved →
      d'.trackLimit = d.trackLimit ∧ (d'.overLimit = false → d.overLimit = false) := by
    rintro d' (rfl | rfl) <;> exact ⟨rfl, id⟩
  cases decode_rep_cases h with
  | failed _ e hd' => exact hframe hd'
  | indexed _ index f rest hint hindex hresolve => exact hframe (resolve_frame hresolve)
  | incremental d₁ f rest hpattern hlit =>
      rw [insert_trackLimit, insert_overLimit]
      exact hframe (read_literal_frame hlit)
  | sizeUpdate n rest hint =>
      rw [resize_trackLimit, resize_overLimit, Bool.or_eq_false_iff]
      exact ⟨rfl, And.left⟩
  | literal _ f sensitive rest hlit => exact hframe (read_literal_frame hlit)

/-- A whole block leaves the tracking limit alone, and a decoder over it stays so. -/
theorem decode_loop_limit (d : Decoder) (b : Bytes) (out : List Field) :
    (d.decodeLoop b out).1.trackLimit = d.trackLimit ∧
      ((d.decodeLoop b out).1.overLimit = false → d.overLimit = false) := by
  induction d, b, out using decodeLoop.induct with
  | case1 d out => rw [decode_loop_nil]; exact ⟨rfl, id⟩
  | case2 d out first tail d₁ e hrep =>
      rw [decode_loop_of_error hrep]
      exact decode_rep_limit hrep
  | case3 d out first tail d₁ f rest hrep ih =>
      rw [decode_loop_of_ok hrep]
      obtain ⟨hlimit, hover⟩ := decode_rep_limit hrep
      exact ⟨ih.1.trans hlimit, fun h => hover (ih.2 h)⟩

theorem decode_limit (d : Decoder) (block : Bytes) {d' : Decoder}
    {r : Except HpackError (List Field)} (h : d.decode block = (d', r)) :
    d'.trackLimit = d.trackLimit ∧ (d'.overLimit = false → d.overLimit = false) := by
  have hloop := decode_loop_limit d block []
  rw [← decode, h] at hloop
  exact hloop

/-- A block that ends within the limit was within it after its first iteration. -/
theorem decode_rep_within {d : Decoder} {first : UInt8} {tail : Bytes} {out : List Field}
    (hwithin : (d.decodeLoop (first :: tail) out).1.overLimit = false) :
    (d.decodeRep first (first :: tail)).1.overLimit = false := by
  rcases hrep : d.decodeRep first (first :: tail) with ⟨d₁, e | ⟨f, rest⟩⟩
  · rw [decode_loop_of_error hrep] at hwithin
    exact hwithin
  · rw [decode_loop_of_ok hrep] at hwithin
    exact (decode_loop_limit d₁ rest _).2 hwithin

/-- A whole block, within the limit. -/
theorem decode_loop_retuned {d : Decoder} {count limit : Nat} (b : Bytes) (out : List Field)
    (hlimit : limit ≤ d.trackLimit)
    (hwithin : ((d.retuned count limit).decodeLoop b out).1.overLimit = false) :
    (d.retuned count limit).decodeLoop b out =
      ((d.decodeLoop b out).1.retuned count limit, (d.decodeLoop b out).2) := by
  induction d, b, out using decodeLoop.induct with
  | case1 d out => simp only [decode_loop_nil]
  | case2 d out first tail d₁ e hrep =>
      have hretuned := decode_rep_retuned first (first :: tail) hlimit (decode_rep_within hwithin)
      rw [hrep] at hretuned
      rw [decode_loop_of_error hrep, decode_loop_of_error hretuned]
  | case3 d out first tail d₁ f rest hrep ih =>
      have hretuned := decode_rep_retuned first (first :: tail) hlimit (decode_rep_within hwithin)
      rw [hrep] at hretuned
      rw [decode_loop_of_ok hretuned] at hwithin
      rw [decode_loop_of_ok hrep, decode_loop_of_ok hretuned]
      exact ih ((decode_rep_limit hrep).1 ▸ hlimit) hwithin

/-- Decoding a block changes the same things in a retuned decoder, as long as it stays within its
limit, and gives the same fields. -/
theorem decode_retuned {d : Decoder} {count limit : Nat} (block : Bytes)
    (hlimit : limit ≤ d.trackLimit)
    (hwithin : ((d.retuned count limit).decode block).1.overLimit = false) :
    (d.retuned count limit).decode block =
      ((d.decode block).1.retuned count limit, (d.decode block).2) :=
  decode_loop_retuned block [] hlimit hwithin

/-! ## What a decoder that saw the start keeps -/

/-- The table is known in full, with the names and values of every entry, and so is its capacity. -/
structure Watched (limit : Nat) (d : Decoder) : Prop where
  accounted : d.Accounted
  exact : d.exact = true
  observed : d.capacityObserved = true
  limit_eq : d.trackLimit = limit
  plain : ∀ f ∈ d.table, f.Plain

namespace Watched

variable {limit : Nat} {d : Decoder}

omit [HuffmanDecoding] in
theorem count_unresolved (h : d.Watched limit) : d.countUnresolved.Watched limit :=
  ⟨⟨h.accounted.size_eq, h.accounted.size_le, h.accounted.track_le, h.accounted.over_empty⟩,
    h.exact, h.observed, h.limit_eq, h.plain⟩

omit [HuffmanDecoding] in
theorem of_frame {d' : Decoder} (h : d.Watched limit) (hd' : d' = d ∨ d' = d.countUnresolved) :
    d'.Watched limit := by
  rcases hd' with rfl | rfl
  · exact h
  · exact h.count_unresolved

omit [HuffmanDecoding] in
theorem resize (h : d.Watched limit) (n : Nat) : (d.resize n).Watched limit where
  accounted := h.accounted.resize n
  exact := resize_exact_of_exact h.exact n
  observed := resize_capacityObserved d n
  limit_eq := (resize_trackLimit d n).trans h.limit_eq
  plain := fun f hf => h.plain f ((resize_table_isPrefix d n).subset hf)

omit [HuffmanDecoding] in
theorem insert (h : d.Watched limit) {f : Field} (hf : d.overLimit = true ∨ f.Plain) :
    (d.insert f).Watched limit where
  accounted := h.accounted.insert f
  exact := insert_exact_of_exact h.exact f
  observed := (insert_capacityObserved d f).trans h.observed
  limit_eq := (insert_trackLimit d f).trans h.limit_eq
  plain := by
    rcases hf with hover | hplain
    · rw [Decoder.insert, if_pos hover]
      exact h.plain
    · intro g hg
      rcases List.mem_cons.mp (insert_table_subset d f hg) with rfl | hg
      · exact hplain
      · exact h.plain g hg

omit [HuffmanDecoding] in
/-- An index resolves to a plain field, unless the table is over its limit. -/
theorem resolve (h : d.Watched limit) {d' : Decoder} {index : Nat} {f : Field}
    (hf : d.resolve index = (d', .ok f)) : d'.overLimit = true ∨ f.unknown = false := by
  rcases resolve_cases hf with ⟨g, hg, rfl, hok⟩ | ⟨-, -, -, hok⟩ | ⟨-, hlossy, rfl, -⟩
  · cases hok
    unfold Decoder.lookup at hg
    split at hg
    · cases hg
    · split at hg
      · unfold staticField at hg
        split at hg
        · cases hg
        · obtain ⟨e, -, rfl⟩ := Option.map_eq_some_iff.mp hg
          exact Or.inr rfl
      · exact Or.inr (h.plain f (List.mem_of_getElem? hg)).2
  · cases hok
  · left
    simpa [isExact, h.exact, countUnresolved] using hlossy

/-- A block keeps what the decoder knows, whether it decodes or not. -/
theorem decode (h : d.Watched limit) (block : Bytes) : (d.decode block).1.Watched limit := by
  refine decode_preserves (P := Watched limit) (G := fun _ _ => True) ?_ (fun _ _ => trivial) h
  intro d first tail h _
  rcases hrep : d.decodeRep first (first :: tail) with ⟨d', r⟩
  cases decode_rep_cases hrep with
  | failed _ e hd' => exact h.of_frame hd'
  | indexed _ index f rest hint hindex hresolve => exact h.of_frame (resolve_frame hresolve)
  | incremental d₁ f rest hpattern hlit =>
      refine (h.of_frame (read_literal_frame hlit)).insert ?_
      obtain ⟨index, b', -, hsensitive, ⟨-, -, hf⟩ | ⟨-, e, hresolve, -, hunknown⟩⟩ :=
        read_literal_ok hlit
      · exact Or.inr ⟨hsensitive, hf⟩
      · exact (h.resolve hresolve).imp_right fun he => ⟨hsensitive, hunknown.trans he⟩
  | sizeUpdate n rest hint => exact h.resize n
  | literal _ f sensitive rest hlit => exact h.of_frame (read_literal_frame hlit)

omit [HuffmanDecoding] in
/-- A decoder that is restored from the snapshot of a tracked table has all of it but the count of
unresolved references and the limit. -/
theorem restored_eq (h : d.Watched limit) (hover : d.overLimit = false)
    (hlimit : limit ≤ usizeMax) :
    d = ((fromEntries (restoredFields d.table) d.maxSize).setTrackLimit usizeMax).retuned
      d.unresolved limit := by
  have hsize := h.accounted.size_eq
  have hmax := h.accounted.track_le hover
  rw [h.limit_eq] at hmax
  have hwithin : ¬ d.maxSize > usizeMax := by omega
  rw [restored_fields_eq h.plain]
  obtain ⟨table, size, maxSize, exact, unresolved, observed, trackLimit, overLimit⟩ := d
  obtain ⟨-, rfl, rfl, rfl, -⟩ := h
  simp only at hover hsize hwithin
  simp only [setTrackLimit, fromEntries, enforceLimit, hwithin, if_false, retuned, hover, hsize,
    totalSize, Nat.zero_add]

end Watched

omit [HuffmanDecoding] in
theorem new_exact_watched (limit : Nat) : (newExact.setTrackLimit limit).Watched limit := by
  have hfields : (newExact.setTrackLimit limit).exact = true ∧
      (newExact.setTrackLimit limit).capacityObserved = true ∧
      (newExact.setTrackLimit limit).trackLimit = limit ∧
      (newExact.setTrackLimit limit).table = [] := by
    unfold setTrackLimit enforceLimit
    split <;> exact ⟨rfl, rfl, rfl, rfl⟩
  obtain ⟨hexact, hobserved, hlimit, htable⟩ := hfields
  exact ⟨new_exact_accounted.set_track_limit limit, hexact, hobserved, hlimit, by simp [htable]⟩

end H2Tap.Decoder
