import H2Tap.Hpack.NeverWrong

/-!
# When an observed capacity is the right one

`capacity_observed` is set by two signals: a size update, which is the encoder's capacity, and the
peer's SETTINGS, which is a bound the encoder may not have acted on yet, and which is not applied at
all when it is above the assumed capacity. `capacity_observed_iff` says when the flag can be
trusted; `raised_before_watching_unobserved` is the run that breaks it.
-/

namespace H2Tap.Decoder

open Lib

/-- The decoder has observed the capacity only if the encoder's is at most the decoder's. -/
def CapacityRight (s : Decoder × Encoder) : Prop :=
  s.1.capacityObserved = true → s.2.capacity ≤ s.1.maxSize

/-- Until a capacity is observed the decoder assumes the default. -/
def AssumesDefault (d : Decoder) : Prop := d.capacityObserved = false → d.maxSize = defaultTableSize

/-- SETTINGS are seen when the encoder is within the announced size and, if they are the first
signal, within the default. -/
def settingsInForce (s : Decoder × Encoder) : WatchEvent → Prop
  | .block _ => True
  | .peerCapacity n =>
      s.2.capacity ≤ n ∧ (s.1.capacityObserved = false → s.2.capacity ≤ defaultTableSize)

/-- A failure keeps the capacity and what is known of it. -/
theorem capacity_of_frame {d d' : Decoder} (h : d' = d ∨ d' = d.countUnresolved) :
    d'.maxSize = d.maxSize ∧ d'.capacityObserved = d.capacityObserved := by
  rcases h with rfl | rfl <;> exact ⟨rfl, rfl⟩

section

variable [HuffmanCoding]

/-- A conformant block ends with the decoder at the encoder's capacity if it updates the size, and
with both capacities as they were if it does not, whether it decodes or not. -/
theorem capacity_decode {d d' : Decoder} {e e' : Encoder} {rs : List Rep} {headers : List Header}
    {res : Except HpackError (List Field)} (hconf : conformantBlock rs = true)
    (hemit : e.emitAll rs = some (e', headers)) (hdecode : d.decode (blockWire rs) = (d', res)) :
    (d'.capacityObserved = true ∧ d'.maxSize = e'.capacity) ∨
      (d'.capacityObserved = d.capacityObserved ∧ d'.maxSize = d.maxSize ∧
        e'.capacity = e.capacity) := by
  -- what has happened so far, for the decoder and the encoder half-way through the block
  let R : Decoder → Encoder → Prop := fun d₁ e₁ =>
    (d₁.capacityObserved = true ∧ d₁.maxSize = e₁.capacity) ∨
      (d₁.capacityObserved = d.capacityObserved ∧ d₁.maxSize = d.maxSize ∧
        e₁.capacity = e.capacity)
  have hkeep : ∀ {d₁ d₂ e₁ e₂}, R d₁ e₁ → e₂.capacity = e₁.capacity →
      d₂.maxSize = d₁.maxSize ∧ d₂.capacityObserved = d₁.capacityObserved → R d₂ e₂ := by
    rintro d₁ d₂ e₁ e₂ hR hcap ⟨hmax, hobs⟩
    simp only [R, hcap, hmax, hobs]
    exact hR
  have hrule := decode_wire_rule (E := fun d' => R d' e')
    (I := fun d₁ rs _ => ∃ e₁ later, e₁.emitAll rs = some (e', later) ∧
      conformantBlock rs = true ∧ R d₁ e₁)
    (by
      rintro d₁ r rs out d₂ err ⟨e₁, later, hrest, hconf, hR⟩ hframe hfails
      rcases conformant_block_cons hconf with ⟨n, rfl, hn, -⟩ | ⟨hfield, hfields⟩
      · have hrange : (Rep.sizeUpdate n).InRange := by
          simp only [Rep.InRange]
          omega
        cases hfails hrange
      · have hcap := Encoder.emit_all_capacity hrest (by simp [hfield, hfields])
        exact hkeep hR hcap (capacity_of_frame hframe))
    (by
      rintro d₁ r rs out d₂ f ⟨e₁, later, hrest, hconf, hR⟩ happly
      obtain ⟨e₂, header, later, hfirst, hlater, -⟩ := Encoder.emit_all_cons hrest
      rcases conformant_block_cons hconf with ⟨n, rfl, hn, hconf⟩ | ⟨hfield, hfields⟩
      · cases happly
        cases hfirst
        exact ⟨_, later, hlater, hconf, Or.inl ⟨by simp, by simp [Encoder.resize]⟩⟩
      · refine ⟨e₂, later, hlater, conformant_block_of_fields hfields, ?_⟩
        exact hkeep hR (Encoder.emit_capacity hfirst hfield) (apply_rep_frame hfield happly))
    (Encoder.names_entry_of_emit_all hemit)
    ⟨e, headers, hemit, hconf, Or.inr ⟨rfl, rfl, rfl⟩⟩ hdecode
  cases res with
  | error err => exact hrule.1 err rfl
  | ok fields =>
      obtain ⟨e₁, later, hend, -, hR⟩ := hrule.2 fields rfl
      obtain ⟨rfl, -⟩ : e₁ = e' ∧ _ := by simpa [Encoder.emitAll] using hend
      exact hR

/-- `finish_block`'s treatment of a failure does not touch the capacity. -/
theorem capacity_decode_or_reset {d : Decoder} {e e' : Encoder} {rs : List Rep}
    {headers : List Header} (hconf : conformantBlock rs = true)
    (hemit : e.emitAll rs = some (e', headers)) :
    let d' := (d.decodeOrReset (blockWire rs)).1
    (d'.capacityObserved = true ∧ d'.maxSize = e'.capacity) ∨
      (d'.capacityObserved = d.capacityObserved ∧ d'.maxSize = d.maxSize ∧
        e'.capacity = e.capacity) := by
  rcases hdecode : d.decode (blockWire rs) with ⟨d', res⟩
  have h := capacity_decode hconf hemit hdecode
  cases res <;> simpa [decodeOrReset, hdecode, resetPartial] using h

/-- Watching keeps the decoder at the default until it has observed a capacity. -/
theorem assumes_default_watch (s : Decoder × Encoder) (event : WatchEvent)
    (h : s.1.AssumesDefault) (hconf : event.conformant = true) :
    (watch s event).1.1.AssumesDefault := by
  cases event with
  | peerCapacity n =>
      intro hobs
      simp [watch] at hobs
  | block rs =>
      simp only [watch]
      split
      · exact h
      · next e headers hemit =>
          intro hobs
          rcases capacity_decode_or_reset (d := s.1) hconf hemit with ⟨hobs', -⟩ | ⟨hobs', hmax, -⟩
          · simp only at hobs
            rw [hobs'] at hobs
            cases hobs
          · simp only at hobs ⊢
            rw [hmax]
            exact h (hobs'.symm.trans hobs)

/-- One event keeps the flag trustworthy exactly when it finds the SETTINGS in force. -/
theorem capacity_right_watch (s : Decoder × Encoder) (event : WatchEvent)
    (hdefault : s.1.AssumesDefault) (h : CapacityRight s) (hconf : event.conformant = true) :
    CapacityRight (watch s event).1 ↔ settingsInForce s event := by
  cases event with
  | peerCapacity n =>
      simp only [CapacityRight, watch, apply_peer_capacity_capacityObserved,
        apply_peer_capacity_maxSize, settingsInForce, forall_const, le_min_iff,
        and_congr_right_iff]
      intro _
      cases hobs : s.1.capacityObserved with
      | true => exact iff_of_true (h hobs) (fun hfalse => by cases hfalse)
      | false =>
          rw [hdefault hobs]
          exact ⟨fun hle _ => hle, fun hle => hle rfl⟩
  | block rs =>
      refine iff_of_true ?_ trivial
      simp only [watch]
      split
      · exact h
      · next e headers hemit =>
          intro hobs
          rcases capacity_decode_or_reset (d := s.1) hconf hemit with
            ⟨-, hmax⟩ | ⟨hobs', hmax, hcap⟩
          · exact hmax.ge
          · simp only at hobs ⊢
            rw [hmax, hcap]
            exact h (hobs'.symm.trans hobs)

/-- Watching a conformant encoder with any hidden table and capacity from the middle of a
connection: in every state reached an observed capacity is at least the encoder's, if and only if
every SETTINGS value is seen while the encoder's capacity is at most that value and, when no
capacity has been observed before, at most the default. -/
theorem capacity_observed_iff (limit : Nat) (e : Encoder) (events : List WatchEvent)
    (hconf : ∀ event ∈ events, event.conformant = true) :
    Always watch CapacityRight (newPartial.setTrackLimit limit, e) events ↔
      Guarded watch settingsInForce (newPartial.setTrackLimit limit, e) events := by
  have hobs : (newPartial.setTrackLimit limit).capacityObserved = false := by
    unfold setTrackLimit enforceLimit
    split <;> rfl
  have hmax : (newPartial.setTrackLimit limit).maxSize = defaultTableSize := by
    unfold setTrackLimit enforceLimit
    split <;> rfl
  exact always_iff_guarded (J := fun s => s.1.AssumesDefault)
    (C := fun event => event.conformant = true) (s := (newPartial.setTrackLimit limit, e))
    (fun s event h hevent _ => assumes_default_watch s event h hevent) capacity_right_watch
    (fun _ => hmax)
    (fun h => by rw [hobs] at h; cases h) hconf

end

/-- An encoder at the default capacity whose peer first confirms it and which then lowers it. -/
theorem capacity_observed_iff_default_encoder :
    let _ := noHuffman
    Always watch CapacityRight (newPartial.setTrackLimit 65536, ⟨[], defaultTableSize, by decide⟩)
      [.peerCapacity 65536, .block [.sizeUpdate 100, .indexed 2]] := by
  intro _
  exact (capacity_observed_iff 65536 _ _ (by decide)).mpr
    ⟨⟨by decide, fun _ => by decide⟩, trivial, trivial⟩

/-- An encoder that was given 8192 bytes before watching began and whose peer announces 8192 again:
the decoder stays at 4096 and calls that observed. -/
theorem raised_before_watching_unobserved :
    let _ := noHuffman
    let s := (run watch (newPartial, hiddenEncoder) [.peerCapacity 8192]).1
    s.1.capacityObserved = true ∧ s.1.maxSize < s.2.capacity := by
  decide +kernel

end H2Tap.Decoder
