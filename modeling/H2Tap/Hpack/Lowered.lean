import H2Tap.Hpack.Restored
import H2Tap.Hpack.Standard
import H2Tap.Hpack.TableSize

/-!
# A capacity that is lowered ahead of the sender

The tracker applies a table size that one side announces as soon as it sees it, and the sender of
the header blocks when it gets to it. `lowered` is the table of an RFC 7541 decoder that does as the
tracker does, and `Tracks` says that the decoder of a direction has it unless the sender was allowed
one above the tracking limit. It is the table of the blocks alone as long as every table on the way
fits the lowered capacity (`SameTable.lowered`).
-/

namespace H2Tap

open Lib

/-- What the decoder of a direction is given: the header blocks of its direction, and the table
sizes that are announced in the other one. -/
inductive Seen where
  | block (block : Bytes)
  | capacity (n : Nat)
  deriving DecidableEq

/-- The header blocks among what a decoder is given. -/
def seenBlocks (seen : List Seen) : List Bytes :=
  seen.filterMap fun
    | .block block => some block
    | .capacity _ => none

theorem seen_blocks_append (seen later : List Seen) :
    seenBlocks (seen ++ later) = seenBlocks seen ++ seenBlocks later := List.filterMap_append

@[simp] theorem seen_blocks_of_blocks (blocks : List Bytes) :
    seenBlocks (blocks.map .block) = blocks := by
  rw [seenBlocks, List.filterMap_map]
  exact List.filterMap_some

@[simp] theorem seen_blocks_of_capacities (sizes : List Nat) :
    seenBlocks (sizes.map .capacity) = [] := by
  rw [seenBlocks, List.filterMap_map, List.filterMap_eq_nil_iff]
  exact fun _ _ => rfl

namespace Standard

variable [HuffmanDecoding]

/-- The table of the reference decoder after one more thing is seen. -/
def see (v : Encoder) : Seen → Encoder
  | .block block => (decode v block).1
  | .capacity n => v.lower n

/-- The table of a reference decoder that applies the table sizes when they are seen. -/
def lowered (v : Encoder) (seen : List Seen) : Encoder := seen.foldl see v

/-- The table of a reference decoder that is given the header blocks alone. -/
def tableAfter (e : Encoder) (blocks : List Bytes) : Encoder :=
  blocks.foldl (fun e block => (decode e block).1) e

/-- After every representation of a block the table fits the capacity that `v` has then. -/
def blockFits (v e : Encoder) (b : Bytes) : Bool :=
  match b with
  | [] => true
  | first :: tail =>
      match step v (first :: tail), _h : step e (first :: tail) with
      | some (v', _, _), some (e', _, rest) =>
          decide (totalSize Header.size e'.table ≤ v'.capacity) && blockFits v' e' rest
      | _, _ => true
termination_by b.length
decreasing_by exact step_length _h

/-- No table on the way is larger than the capacity as it was lowered. -/
def fits : Encoder → Encoder → List Seen → Bool
  | _, _, [] => true
  | v, e, .block block :: later =>
      blockFits v e block && fits (decode v block).1 (decode e block).1 later
  | v, e, .capacity n :: later =>
      decide (totalSize Header.size e.table ≤ (v.lower n).capacity) && fits (v.lower n) e later

/-! ## The same table at a lower capacity -/

omit [HuffmanDecoding] in
/-- What fits a lower capacity is the same at both. -/
theorem fit_prefix_same {low high : Nat} (hle : low ≤ high) {table : List Header}
    (hfits : totalSize Header.size (fitPrefix Header.size high table) ≤ low) :
    fitPrefix Header.size low table = fitPrefix Header.size high table := by
  have hlow : fitPrefix Header.size low table <+: fitPrefix Header.size high table :=
    fitPrefix_maximal (fitPrefix_isPrefix _ _) ((totalSize_fitPrefix_le _ _).trans hle)
  have hhigh : fitPrefix Header.size high table <+: fitPrefix Header.size low table :=
    fitPrefix_maximal (fitPrefix_isPrefix _ _) hfits
  exact hlow.eq_of_length_le hhigh.length_le

/-- `v` has the table of `e`, at a capacity that is no larger. -/
structure SameTable (v e : Encoder) : Prop where
  table : v.table = e.table
  capacity : v.capacity ≤ e.capacity

variable {v e : Encoder}

omit [HuffmanDecoding] in
theorem SameTable.entry (h : SameTable v e) (index : Nat) : v.entry index = e.entry index := by
  unfold Encoder.entry
  rw [h.table]

omit [HuffmanDecoding] in
theorem SameTable.literal_name (h : SameTable v e) (name : LiteralName) :
    v.literalName name = e.literalName name := by
  cases name with
  | index index => simp only [Encoder.literalName, h.entry]
  | fresh name => rfl

omit [HuffmanDecoding] in
theorem SameTable.insert (h : SameTable v e) {header : Header}
    (hfits : totalSize Header.size (e.insert header).table ≤ v.capacity) :
    SameTable (v.insert header) (e.insert header) := by
  refine ⟨?_, h.capacity⟩
  show fitPrefix Header.size v.capacity (header :: v.table) = _
  rw [h.table]
  exact fit_prefix_same h.capacity hfits

omit [HuffmanDecoding] in
theorem SameTable.resize (h : SameTable v e) (n : Nat) : SameTable (v.resize n) (e.resize n) := by
  refine ⟨?_, le_refl n⟩
  show fitPrefix Header.size n v.table = _
  rw [h.table]
  rfl

omit [HuffmanDecoding] in
/-- A table size that the table fits. -/
theorem SameTable.lower (h : SameTable v e) {n : Nat}
    (hfits : totalSize Header.size e.table ≤ (v.lower n).capacity) : SameTable (v.lower n) e := by
  unfold Encoder.lower at hfits ⊢
  split
  · next hlower =>
      rw [if_pos hlower] at hfits
      refine ⟨?_, hlower.le.trans h.capacity⟩
      show fitPrefix Header.size n v.table = _
      rw [h.table]
      exact fitPrefix_of_totalSize_le hfits
  · exact h

omit [HuffmanDecoding] in
/-- A representation is valid for both or for neither, and means the same. -/
theorem SameTable.emit (h : SameTable v e) (rep : Rep) :
    (v.emit rep = none ∧ e.emit rep = none) ∨
      ∃ v' e' header, v.emit rep = some (v', header) ∧ e.emit rep = some (e', header) ∧
        (totalSize Header.size e'.table ≤ v'.capacity → SameTable v' e') := by
  cases rep with
  | indexed index =>
      simp only [Encoder.emit, h.entry]
      cases e.entry index with
      | none => exact Or.inl ⟨rfl, rfl⟩
      | some header => exact Or.inr ⟨v, e, some header, rfl, rfl, fun _ => h⟩
  | sizeUpdate n => exact Or.inr ⟨_, _, none, rfl, rfl, fun _ => h.resize n⟩
  | literal indexing name value =>
      cases hname : e.literalName name with
      | none =>
          left
          cases indexing <;> simp only [Encoder.emit, h.literal_name, hname, Option.map_none,
            and_self]
      | some n =>
          right
          cases indexing with
          | incremental =>
              refine ⟨v.insert ⟨n, value.octets⟩, e.insert ⟨n, value.octets⟩,
                some ⟨n, value.octets⟩, ?_, ?_, h.insert⟩
              · simp only [Encoder.emit, h.literal_name, hname, Option.map_some]
              · simp only [Encoder.emit, hname, Option.map_some]
          | without =>
              refine ⟨v, e, some ⟨n, value.octets⟩, ?_, ?_, fun _ => h⟩
              · simp only [Encoder.emit, h.literal_name, hname, Option.map_some]
              · simp only [Encoder.emit, hname, Option.map_some]
          | never =>
              refine ⟨v, e, some ⟨n, value.octets⟩, ?_, ?_, fun _ => h⟩
              · simp only [Encoder.emit, h.literal_name, hname, Option.map_some]
              · simp only [Encoder.emit, hname, Option.map_some]

/-- So is the first representation of a block. -/
theorem SameTable.step (h : SameTable v e) (b : Bytes) :
    (step v b = none ∧ step e b = none) ∨
      ∃ v' e' f rest, step v b = some (v', f, rest) ∧ step e b = some (e', f, rest) ∧
        (totalSize Header.size e'.table ≤ v'.capacity → SameTable v' e') := by
  unfold Standard.step
  cases representation b with
  | none => exact Or.inl ⟨rfl, rfl⟩
  | some parsed =>
      obtain ⟨rep, rest⟩ := parsed
      simp only [Option.bind_eq_bind, Option.bind_some]
      rcases h.emit rep with ⟨hv, he⟩ | ⟨v', e', header, hv, he, hsame⟩
      · rw [hv, he]
        exact Or.inl ⟨rfl, rfl⟩
      · rw [hv, he]
        exact Or.inr ⟨v', e', header.map (shown rep), rest, rfl, rfl, hsame⟩

/-- The table fits after the first representation and after the others. -/
theorem block_fits_applied {v' e' : Encoder} {f f' : Option Field} {first : UInt8}
    {tail rest rest' : Bytes} (hv : step v (first :: tail) = some (v', f, rest))
    (he : step e (first :: tail) = some (e', f', rest')) :
    blockFits v e (first :: tail) =
      (decide (totalSize Header.size e'.table ≤ v'.capacity) && blockFits v' e' rest') := by
  rw [blockFits]
  split
  · next hv' he' =>
      rw [hv] at hv'
      rw [he] at he'
      cases hv'
      cases he'
      rfl
  · next hno =>
      exact absurd he (hno _ _ _ _ _ _ hv)

/-- A block whose tables fit. -/
theorem SameTable.decode_loop (h : SameTable v e) {b : Bytes} {out : List Field}
    (hfits : blockFits v e b = true) :
    SameTable (decodeLoop v b out).1 (decodeLoop e b out).1 := by
  induction e, b, out using decodeLoop.induct generalizing v with
  | case1 e out =>
      rw [decodeLoop, decodeLoop]
      exact h
  | case2 e out first tail hrefused =>
      rcases h.step (first :: tail) with ⟨hv, -⟩ | ⟨v', e', f, rest, -, he, -⟩
      · rw [decode_loop_refused hv, decode_loop_refused hrefused]
        exact h
      · rw [hrefused] at he
        cases he
  | case3 e out first tail e' f rest happlied ih =>
      rcases h.step (first :: tail) with ⟨-, hno⟩ | ⟨v', e'', f', rest', hv, he, hsame⟩
      · rw [happlied] at hno
        cases hno
      · obtain ⟨rfl, rfl, rfl⟩ : e' = e'' ∧ f = f' ∧ rest = rest' := by
          rw [happlied] at he
          cases he
          exact ⟨rfl, rfl, rfl⟩
        rw [block_fits_applied hv he, Bool.and_eq_true, decide_eq_true_eq] at hfits
        rw [decode_loop_applied hv, decode_loop_applied he]
        exact ih (hsame hfits.1) hfits.2

/-- As long as the tables fit, lowering the capacity early makes no difference to them. -/
theorem SameTable.lowered (h : SameTable v e) {seen : List Seen} (hfits : fits v e seen = true) :
    SameTable (lowered v seen) (tableAfter e (seenBlocks seen)) := by
  induction seen generalizing v e with
  | nil => exact h
  | cons first later ih =>
      cases first with
      | block block =>
          obtain ⟨hblock, hlater⟩ := Bool.and_eq_true_iff.mp hfits
          exact ih (h.decode_loop hblock) hlater
      | capacity n =>
          obtain ⟨hn, hlater⟩ := Bool.and_eq_true_iff.mp hfits
          exact ih (h.lower (of_decide_eq_true hn)) hlater

end Standard

/-! ## The decoder of a direction -/

namespace Decoder

variable {limit : Nat} {v : Encoder} {d : Decoder}

/-- The decoder has the table `v`, unless the sender was allowed one above the tracking limit. -/
def Tracks (limit : Nat) (v : Encoder) (d : Decoder) : Prop :=
  d.overLimit = true ∨ d.Copies limit v

theorem tracks_initial (limit : Nat) :
    (newExact.setTrackLimit limit).Tracks limit Encoder.initial := by
  rcases Nat.lt_or_ge limit defaultTableSize with hover | hwithin
  · left
    have hlarge : newExact.maxSize > limit := hover
    simp only [setTrackLimit, enforceLimit, hlarge, if_true]
  · exact Or.inr (copies_initial hwithin)

/-- The capacity of a tracked table is within the limit. -/
theorem Copies.capacity_le (h : d.Copies limit v) : v.capacity ≤ limit := by
  rw [← h.capacity, ← h.limit_eq]
  exact h.accounted.track_le h.tracked

/-- Another limit that the capacity is within. -/
theorem Copies.retuned (h : d.Copies limit v) {other : Nat} (hother : v.capacity ≤ other) :
    (d.retuned 0 other).Copies other v := by
  obtain ⟨haccounted, htable, hmax, hexact, htracked, -⟩ := h
  refine ⟨⟨haccounted.size_eq, haccounted.size_le, fun _ => ?_, haccounted.over_empty⟩, htable,
    hmax, hexact, htracked, rfl⟩
  show d.maxSize ≤ other
  rwa [hmax]

/-- A table size. -/
theorem Tracks.apply_peer_capacity (h : d.Tracks limit v) (n : Nat) :
    (d.applyPeerCapacity n).Tracks limit (v.lower n) := by
  rcases h with hover | hcopies
  · left
    unfold applyPeerCapacity
    split
    · rw [resize_overLimit]
      simp [hover]
    · exact hover
  · exact Or.inr (hcopies.apply_peer_capacity n)

variable [HuffmanDecoding]

/-- A header block. -/
theorem Tracks.decode (h : d.Tracks limit v) (hlimit : limit ≤ usizeMax) (block : Bytes) :
    (d.decode block).1.Tracks limit (Standard.decode v block).1 := by
  have hkept := decode_limit d block (Prod.eta _).symm
  cases hover : (d.decode block).1.overLimit with
  | true => exact Or.inl hover
  | false =>
      have htracked := hkept.2 hover
      obtain hcopies := h.resolve_left (by rw [htracked]; exact Bool.false_ne_true)
      right
      -- within its limit the decoder does what it does with the widest limit
      have hwide := hcopies.retuned (hcopies.capacity_le.trans hlimit)
      have hsame : (d.retuned 0 usizeMax).retuned 0 limit = d := by
        rw [← hcopies.limit_eq]
        rfl
      have hend : (((d.retuned 0 usizeMax).retuned 0 limit).decode block).1.overLimit = false := by
        rw [hsame]
        exact hover
      have hdecode := decode_retuned (d := d.retuned 0 usizeMax) block hlimit hend
      rw [hsame] at hdecode
      have hcopied := (Standard.decode_loop_standard hwide block []).1
      have hwithin : (Standard.decode v block).1.capacity ≤ limit := by
        have hmax := (hcopies.accounted.decode block).track_le hover
        rw [hkept.1, hcopies.limit_eq, hdecode] at hmax
        exact hcopied.capacity ▸ hmax
      rw [hdecode]
      exact hcopied.retuned hwithin

end Decoder

end H2Tap
