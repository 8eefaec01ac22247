import H2Tap.Lib.Run
import H2Tap.Hpack.DecodeLoop

/-!
# Exactness on an assumed capacity

A decoder that joined mid-stream assumes the default capacity until something on the wire tells it
the real one, and an assumed capacity proves nothing about what the peer still holds. The eviction
and saturation proofs are gated on `capacity_observed`; the oversized branch of `insert` is not
(`oversized_insert_exact_unobserved`). `exact_only_when_observed` shows that this branch is the only
way to a table called exact at an assumed capacity.
-/

namespace H2Tap

open Lib

/-- The operations a caller performs on a decoder. -/
inductive DecoderOp where
  | decode (block : Bytes)
  | applyPeerCapacity (n : Nat)
  | setTrackLimit (n : Nat)
  | resetPartial
  deriving DecidableEq, Repr

namespace Decoder

section

variable [HuffmanDecoding]

/-- One operation; a decode may fail, and leaves the decoder where it stopped. -/
def perform (d : Decoder) : DecoderOp → Decoder × Option (Except HpackError (List Field))
  | .decode block => ((d.decode block).1, some (d.decode block).2)
  | .applyPeerCapacity n => (d.applyPeerCapacity n, none)
  | .setTrackLimit n => (d.setTrackLimit n, none)
  | .resetPartial => (d.resetPartial, none)

/-- A literal about to be inserted fits the table, unless the capacity is observed or the table is
not tracked. -/
def insertFits (d : Decoder) (b : Bytes) : Bool :=
  match b with
  | [] => true
  | first :: _ =>
      if first &&& 0xc0 = 0x40 then
        match (d.readLiteral b 6).2 with
        | .error _ => true
        | .ok (f, _) => d.capacityObserved || d.overLimit || decide (f.size ≤ d.maxSize)
      else true

/-- `insertFits` at every iteration of a decode; the other operations insert nothing. -/
def opInsertsFit (d : Decoder) : DecoderOp → Bool
  | .decode block => (d.iterations block).all fun s => s.1.insertFits s.2
  | _ => true

/-- An accounted decoder that only claims exactness at an observed capacity. -/
structure ExactObserved (d : Decoder) : Prop where
  accounted : d.Accounted
  observed : d.isExact = true → d.capacityObserved = true

namespace ExactObserved

variable {d : Decoder}

omit [HuffmanDecoding] in
theorem of_observed (h : d.Accounted) (hobs : d.capacityObserved = true) : d.ExactObserved :=
  ⟨h, fun _ => hobs⟩

omit [HuffmanDecoding] in
theorem count_unresolved (h : d.ExactObserved) : d.countUnresolved.ExactObserved :=
  ⟨⟨h.accounted.size_eq, h.accounted.size_le, h.accounted.track_le, h.accounted.over_empty⟩,
    h.observed⟩

omit [HuffmanDecoding] in
theorem of_frame {d' : Decoder} (h : d.ExactObserved) (hd' : d' = d ∨ d' = d.countUnresolved) :
    d'.ExactObserved := by
  rcases hd' with rfl | rfl
  · exact h
  · exact h.count_unresolved

omit [HuffmanDecoding] in
/-- Inserting an entry that fits claims exactness on the old evidence or at an observed capacity. -/
theorem insert (h : d.ExactObserved) {f : Field}
    (hfits : d.capacityObserved = true ∨ d.overLimit = true ∨ f.size ≤ d.maxSize) :
    (d.insert f).ExactObserved := by
  refine ⟨h.accounted.insert f, fun hexact => ?_⟩
  rw [insert_capacityObserved]
  rcases hfits with hobs | hover | hsize
  · exact hobs
  · simp [isExact, hover] at hexact
  · cases hover : d.overLimit with
    | true => simp [isExact, hover] at hexact
    | false =>
        have hlarge : decide (d.maxSize < f.size) = false := by simpa using hsize
        simp only [isExact, insert_overLimit, hover, insert_exact h.accounted f hover, hlarge,
          Bool.or_false, Bool.not_false, Bool.and_true, Bool.or_eq_true, Bool.and_eq_true]
          at hexact
        rcases hexact with hold | ⟨hobs, -⟩
        · exact h.observed (by simp [isExact, hold, hover])
        · exact hobs

/-- Every iteration whose insertion fits keeps the property. -/
theorem decode_rep (h : d.ExactObserved) {first : UInt8} {tail : Bytes}
    (hfits : d.insertFits (first :: tail) = true) :
    (d.decodeRep first (first :: tail)).1.ExactObserved := by
  rcases hrep : d.decodeRep first (first :: tail) with ⟨d', r⟩
  cases decode_rep_cases hrep with
  | failed d' e hd' => exact h.of_frame hd'
  | indexed d' index f rest hint hindex hresolve => exact h.of_frame (resolve_frame hresolve)
  | incremental d' f rest hpattern hlit =>
      have hsize : d.capacityObserved = true ∨ d.overLimit = true ∨ f.size ≤ d.maxSize := by
        simpa [insertFits, hpattern, hlit, or_assoc] using hfits
      rcases read_literal_frame hlit with rfl | rfl
      · exact h.insert hsize
      · exact h.count_unresolved.insert hsize
  | sizeUpdate n rest hint =>
      exact of_observed (h.accounted.resize n) (resize_capacityObserved d n)
  | literal d' f sensitive rest hlit => exact h.of_frame (read_literal_frame hlit)

omit [HuffmanDecoding] in
theorem set_track_limit (h : d.ExactObserved) (n : Nat) : (d.setTrackLimit n).ExactObserved := by
  refine ⟨h.accounted.set_track_limit n, fun hexact => ?_⟩
  have hsame : (d.setTrackLimit n).capacityObserved = d.capacityObserved := by
    unfold setTrackLimit enforceLimit
    split <;> rfl
  rw [hsame]
  refine h.observed ?_
  unfold setTrackLimit enforceLimit at hexact
  split at hexact
  · simp [isExact] at hexact
  · exact hexact

/-- Every operation whose insertions fit keeps the property. -/
theorem perform (h : d.ExactObserved) (op : DecoderOp) (hfits : d.opInsertsFit op = true) :
    (d.perform op).1.ExactObserved := by
  cases op with
  | decode block =>
      exact decode_preserves (P := ExactObserved) (G := fun d b => d.insertFits b = true)
        (fun d first tail hd hG => hd.decode_rep hG) (List.all_eq_true.mp hfits) h
  | applyPeerCapacity n =>
      exact of_observed (h.accounted.apply_peer_capacity n)
        (apply_peer_capacity_capacityObserved d n)
  | setTrackLimit n => exact h.set_track_limit n
  | resetPartial => exact ⟨h.accounted.of_reset, fun hexact => by simp [Decoder.perform,
      Decoder.resetPartial, isExact] at hexact⟩

end ExactObserved

/-- In every run of a decoder that joined mid-stream in which no entry larger than the assumed
capacity is inserted, exactness is claimed only at an observed capacity. -/
theorem exact_only_when_observed (ops : List DecoderOp)
    (hfits : Guarded perform (fun d op => d.opInsertsFit op = true) newPartial ops)
    (hexact : (run perform newPartial ops).1.isExact = true) :
    (run perform newPartial ops).1.capacityObserved = true := by
  have hinit : newPartial.ExactObserved :=
    ⟨new_partial_accounted, fun h => by simp [newPartial, isExact] at h⟩
  have hrun := run_invariant _ (P := ExactObserved) (Q := fun _ => True)
    (fun d op hd hG => ⟨hd.perform op hG, trivial⟩) hinit hfits
  exact hrun.1.observed hexact

end

/-- A run that meets the guard and ends exact: the peer announces a 64-byte table and an entry of
35 bytes leaves no room for another. -/
theorem exact_only_when_observed_small_table :
    let _ := noHuffman
    (run perform newPartial [.applyPeerCapacity 64,
      .decode (0x40 :: (writeString [0x78] ++ writeString [0x61, 0x62]))]).1.capacityObserved =
      true := by
  intro _
  exact exact_only_when_observed _ (by decide +kernel) (by decide +kernel)

/-- A literal of 4097 bytes, one more than the assumed capacity. -/
def oversizedLiteral : Bytes :=
  0x40 :: (writeString [0x78] ++ writeString (List.replicate 4064 0x61))

/-- The oversized branch of `insert` claims exactness although nothing told the decoder the
capacity. -/
theorem oversized_insert_exact_unobserved :
    let _ := noHuffman
    let d := (run perform newPartial [.decode oversizedLiteral]).1
    d.isExact = true ∧ d.capacityObserved = false := by
  decide +kernel

end Decoder

end H2Tap
