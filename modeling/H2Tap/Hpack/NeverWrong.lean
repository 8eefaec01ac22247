import H2Tap.Lib.Run
import H2Tap.Hpack.Wire

/-!
# A decoder that joined mid-stream is never silently wrong

The decoder and the encoder it observes may hold different tables: the encoder's table and capacity
are hidden when observation starts, the decoder assumes a capacity, accounts for placeholder names
by their own length, and starts over after a failure. What survives all of this is that the two
tables agree wherever both hold an entry (`Aligned`), because both grow at the front and shrink at
the tail. Read `aligned_apply_rep` first; `decode_never_wrong` is the result over all histories.
-/

namespace H2Tap

open Lib

/-- A field that is not flagged is the encoder's header. -/
def Field.Shows (f : Field) (h : Header) : Prop := f.unknown = false → f.header = h

namespace Decoder

/-- The decoder's accounting is right and its table agrees with the encoder's where both hold an
entry. -/
structure Aligned (d : Decoder) (e : Encoder) : Prop where
  accounted : d.Accounted
  agree : AgreeOnCommon Field.Shows d.table e.table

namespace Aligned

variable {d : Decoder} {e : Encoder}

/-- An empty table agrees with every encoder. -/
theorem of_table_nil (h : d.Accounted) (hnil : d.table = []) (e : Encoder) : d.Aligned e :=
  ⟨h, by rw [hnil]; exact AgreeOnCommon.nil_left _⟩

theorem count_unresolved (h : d.Aligned e) : d.countUnresolved.Aligned e :=
  ⟨⟨h.accounted.size_eq, h.accounted.size_le, h.accounted.track_le, h.accounted.over_empty⟩,
    h.agree⟩

theorem of_frame {d' : Decoder} (h : d.Aligned e) (hd' : d' = d ∨ d' = d.countUnresolved) :
    d'.Aligned e := by
  rcases hd' with rfl | rfl
  · exact h
  · exact h.count_unresolved

/-- Both sides insert the same header; either may drop or refuse what the other keeps. -/
theorem insert (h : d.Aligned e) {f : Field} {header : Header} (hshows : f.Shows header) :
    (d.insert f).Aligned (e.insert header) := by
  cases hover : d.overLimit with
  | true =>
      have hinsert : d.insert f = d := by simp [Decoder.insert, hover]
      rw [hinsert]
      exact of_table_nil h.accounted (h.accounted.over_empty hover) _
  | false =>
      refine ⟨h.accounted.insert f, ?_⟩
      rw [insert_table h.accounted f hover]
      exact (h.agree.cons hshows).of_isPrefix (fitPrefix_isPrefix _ _) (fitPrefix_isPrefix _ _)

theorem resize (h : d.Aligned e) (n m : Nat) : (d.resize n).Aligned (e.resize m) :=
  ⟨h.accounted.resize n,
    h.agree.of_isPrefix (resize_table_isPrefix d n) (fitPrefix_isPrefix _ _)⟩

/-- The peer's SETTINGS only change the decoder. -/
theorem apply_peer_capacity (h : d.Aligned e) (n : Nat) : (d.applyPeerCapacity n).Aligned e :=
  ⟨h.accounted.apply_peer_capacity n,
    h.agree.of_isPrefix (apply_peer_capacity_table_isPrefix d n) (List.prefix_refl _)⟩

/-- An index that resolves in both tables resolves to the same header. -/
theorem lookup (h : d.Aligned e) {index : Nat} {f : Field} {header : Header}
    (hf : d.lookup index = some f) (hh : e.entry index = some header) : f.Shows header := by
  unfold Decoder.lookup at hf
  unfold Encoder.entry at hh
  split at hf
  · cases hf
  · next hindex =>
      rw [if_neg hindex] at hh
      split at hf
      · next hstatic =>
          rw [if_pos hstatic, hf] at hh
          intro _
          simpa using hh
      · next hdynamic =>
          rw [if_neg hdynamic] at hh
          exact h.agree _ _ _ hf hh

/-- Whatever an index the encoder may use resolves to shows the encoder's header. -/
theorem resolve (h : d.Aligned e) {d' : Decoder} {index : Nat} {f : Field} {header : Header}
    (hf : d.resolve index = (d', .ok f)) (hh : e.entry index = some header) :
    d'.Aligned e ∧ f.Shows header := by
  refine ⟨h.of_frame (resolve_frame hf), ?_⟩
  rcases resolve_cases hf with ⟨g, hg, -, hok⟩ | ⟨-, -, -, hok⟩ | ⟨-, -, -, hok⟩
  · cases hok
    exact h.lookup hg hh
  · cases hok
  · cases hok
    intro hunknown
    cases hunknown

/-- A literal with a name that shows the encoder's. -/
theorem apply_literal (h : d.Aligned e) {indexing : Indexing} {name value n : Bytes}
    {unknown : Bool} (hname : unknown = false → n = name) :
    let header : Header := ⟨name, value⟩
    (d.applyLiteral indexing n unknown value).1.Aligned
        (if indexing = .incremental then e.insert header else e) ∧
      List.Forall₂ Field.Shows (d.applyLiteral indexing n unknown value).2.toList [header] := by
  have hshows : ∀ sensitive, (⟨n, value, sensitive, unknown⟩ : Field).Shows ⟨name, value⟩ := by
    intro sensitive hunknown
    simp only [Field.header, hname hunknown]
  cases indexing with
  | incremental => exact ⟨h.insert (hshows false), .cons (hshows false) .nil⟩
  | without => exact ⟨h, .cons (hshows false) .nil⟩
  | never => exact ⟨h, .cons (hshows true) .nil⟩

end Aligned

section

variable [HuffmanCoding]

omit [HuffmanCoding] in
/-- A representation the decoder accepts shows the header the encoder means and keeps the
tables aligned. -/
theorem aligned_apply_rep {d d' : Decoder} {e e' : Encoder} {r : Rep} {f : Option Field}
    {header : Option Header} (h : d.Aligned e) (hemit : e.emit r = some (e', header))
    (happly : d.applyRep r = (d', .ok f)) :
    d'.Aligned e' ∧ List.Forall₂ Field.Shows f.toList header.toList := by
  cases r with
  | indexed index =>
      simp only [Encoder.emit, Option.map_eq_some_iff, Prod.mk.injEq] at hemit
      obtain ⟨hd, hentry, rfl, rfl⟩ := hemit
      simp only [applyRep] at happly
      split at happly
      · cases happly
      · split at happly
        · cases happly
        · next hresolve =>
            cases happly
            obtain ⟨haligned, hshows⟩ := h.resolve hresolve hentry
            exact ⟨haligned, .cons hshows .nil⟩
  | literal indexing name value =>
      obtain ⟨n, hn, rfl, rfl⟩ := Encoder.emit_literal_eq hemit
      cases name with
      | index index =>
          simp only [Encoder.literalName, Option.map_eq_some_iff] at hn
          obtain ⟨entry, hentry, rfl⟩ := hn
          simp only [applyRep] at happly
          split at happly
          · cases happly
          · next hresolve =>
              cases happly
              obtain ⟨haligned, hshows⟩ := h.resolve hresolve hentry
              exact haligned.apply_literal fun hunknown =>
                congrArg Header.name (hshows hunknown)
      | fresh name =>
          obtain rfl : name.octets = n := by simpa [Encoder.literalName] using hn
          cases happly
          exact h.apply_literal fun _ => rfl
  | sizeUpdate n =>
      cases happly
      simp only [Encoder.emit, Option.some.injEq, Prod.mk.injEq] at hemit
      obtain ⟨rfl, rfl⟩ := hemit
      exact ⟨h.resize n n, .nil⟩

/-- Decoding an encoder's block from aligned tables: an accepted block shows the encoder's header
list and leaves the tables aligned, a refused one leaves the decoder's accounting right. -/
theorem aligned_decode {d d' : Decoder} {e e' : Encoder} {rs : List Rep} {headers : List Header}
    {res : Except HpackError (List Field)} (h : d.Aligned e)
    (hemit : e.emitAll rs = some (e', headers)) (hdecode : d.decode (blockWire rs) = (d', res)) :
    (∀ err, res = .error err → d'.Accounted) ∧
      (∀ fields, res = .ok fields →
        d'.Aligned e' ∧ List.Forall₂ Field.Shows fields headers) := by
  -- the headers split into those already shown and those of the representations to come
  let I : Decoder → List Rep → List Field → Prop := fun d rs out =>
    ∃ e shown coming, d.Aligned e ∧ e.emitAll rs = some (e', coming) ∧
      List.Forall₂ Field.Shows out shown ∧ headers = shown ++ coming
  have hrule := decode_wire_rule (I := I) (E := Accounted)
    (by
      rintro d r rs out d' err ⟨e, shown, coming, haligned, -⟩ hframe -
      exact (haligned.of_frame hframe).accounted)
    (by
      rintro d r rs out d' f ⟨e, shown, coming, haligned, hrest, hshown, hsplit⟩ happly
      obtain ⟨e₁, header, later, hfirst, hlater, rfl⟩ := Encoder.emit_all_cons hrest
      obtain ⟨haligned', hshows⟩ := aligned_apply_rep haligned hfirst happly
      exact ⟨e₁, shown ++ header.toList, later, haligned', hlater,
        List.rel_append hshown hshows, by rw [hsplit, List.append_assoc]⟩)
    (Encoder.names_entry_of_emit_all hemit) ⟨e, [], headers, h, hemit, .nil, rfl⟩ hdecode
  refine ⟨hrule.1, fun fields hok => ?_⟩
  obtain ⟨e₁, shown, coming, haligned, hend, hshown, hsplit⟩ := hrule.2 fields hok
  obtain ⟨rfl, rfl⟩ : e₁ = e' ∧ coming = [] := by
    simpa [Encoder.emitAll, eq_comm] using hend
  rw [hsplit, List.append_nil]
  exact ⟨haligned, hshown⟩

/-! ## Whole histories -/

/-- Decoding as `finish_block` does it: a failure is followed by `reset_partial`. -/
def decodeOrReset (d : Decoder) (block : Bytes) : Decoder × Except HpackError (List Field) :=
  match d.decode block with
  | (d, .ok fields) => (d, .ok fields)
  | (d, .error e) => (d.resetPartial, .error e)

/-- What happens while a decoder watches an encoder: the encoder sends a header block, or its peer
announces a table size. -/
inductive WatchEvent where
  | block (rs : List Rep)
  | peerCapacity (n : Nat)
  deriving DecidableEq, Repr

/-- The header blocks of a conformant encoder. -/
def WatchEvent.conformant : WatchEvent → Bool
  | .block rs => conformantBlock rs
  | .peerCapacity _ => true

/-- One event, with the decoder's result and the encoder's header list for a block. A block that is
not valid for the encoder's table is never sent and changes nothing. -/
def watch (s : Decoder × Encoder) :
    WatchEvent → (Decoder × Encoder) × Option (Except HpackError (List Field) × List Header)
  | .block rs =>
      match s.2.emitAll rs with
      | none => (s, none)
      | some (e, headers) =>
          let result := s.1.decodeOrReset (blockWire rs)
          ((result.1, e), some (result.2, headers))
  | .peerCapacity n => ((s.1.applyPeerCapacity n, s.2), none)

/-- One event keeps the tables aligned, and an accepted block shows the encoder's headers. -/
theorem aligned_watch (s : Decoder × Encoder) (event : WatchEvent) (h : s.1.Aligned s.2) :
    (watch s event).1.1.Aligned (watch s event).1.2 ∧
      ∀ fields headers, (watch s event).2 = some (.ok fields, headers) →
        List.Forall₂ Field.Shows fields headers := by
  cases event with
  | peerCapacity n => exact ⟨h.apply_peer_capacity n, fun fields headers heq => by cases heq⟩
  | block rs =>
      simp only [watch]
      split
      · exact ⟨h, fun fields headers heq => by cases heq⟩
      · next e headers hemit =>
          rcases hdecode : s.1.decode (blockWire rs) with ⟨d', res⟩
          obtain ⟨herror, hok⟩ := aligned_decode h hemit hdecode
          cases res with
          | error err =>
              simp only [decodeOrReset, hdecode]
              refine ⟨.of_table_nil (herror err rfl).of_reset rfl e, ?_⟩
              intro fields headers heq
              cases heq
          | ok fields =>
              simp only [decodeOrReset, hdecode]
              refine ⟨(hok fields rfl).1, ?_⟩
              intro fields headers heq
              cases heq
              exact (hok _ rfl).2

/-- A decoder that starts watching an encoder with any hidden table and capacity, under any tracking
limit, through any history of header blocks, failures and announced table sizes: every block it
accepts has one field for each of the encoder's headers, in order, and every field that is not
flagged is that header. -/
theorem decode_never_wrong (limit : Nat) (e : Encoder) (events : List WatchEvent)
    (fields : List Field) (headers : List Header)
    (hout : some (.ok fields, headers) ∈ (run watch (newPartial.setTrackLimit limit, e) events).2) :
    fields.length = headers.length ∧
      ∀ (i : Nat) f header, fields[i]? = some f → headers[i]? = some header →
        f.unknown = false → f.name = header.name ∧ f.value = header.value := by
  have hinit : (newPartial.setTrackLimit limit).Aligned e := by
    refine .of_table_nil (new_partial_accounted.set_track_limit limit) ?_ e
    unfold setTrackLimit enforceLimit
    split <;> rfl
  have hall := run_invariant watch (P := fun s => s.1.Aligned s.2)
    (G := fun _ _ => True)
    (Q := fun o => ∀ fields headers, o = some (.ok fields, headers) →
      List.Forall₂ Field.Shows fields headers)
    (s := (newPartial.setTrackLimit limit, e))
    (fun s event hs _ => aligned_watch s event hs) hinit (guarded_true _ events)
  have hshows := hall.2 _ hout fields headers rfl
  refine ⟨hshows.length_eq, ?_⟩
  intro i f header hf hh hunknown
  obtain ⟨hi, rfl⟩ := List.getElem?_eq_some_iff.mp hf
  obtain ⟨hj, rfl⟩ := List.getElem?_eq_some_iff.mp hh
  have heq := hshows.get hi hj hunknown
  exact ⟨congrArg Header.name heq, congrArg Header.value heq⟩

end

/-- An encoder that holds one entry and a larger table than the decoder assumes. -/
def hiddenEncoder : Encoder where
  table := [⟨asciiBytes "x", asciiBytes "y"⟩]
  capacity := 8192
  fits := by decide

/-- A reference to the hidden entry stays flagged and later ones show the encoder's headers. -/
theorem decode_never_wrong_hidden_entry :
    let _ := noHuffman
    let ab := Field.new (asciiBytes "a") (asciiBytes "b")
    let fields := [placeholderField 62, ab, ab]
    let headers := [⟨asciiBytes "x", asciiBytes "y"⟩, ab.header, ab.header]
    fields.length = headers.length ∧
      ∀ (i : Nat) f header, fields[i]? = some f → headers[i]? = some header →
        f.unknown = false → f.name = header.name ∧ f.value = header.value := by
  intro _ ab fields headers
  exact decode_never_wrong 4096 hiddenEncoder
    [.peerCapacity 16384, .block [.indexed 62,
      .literal .incremental (.fresh ⟨asciiBytes "a", false⟩) ⟨asciiBytes "b", false⟩,
      .indexed 62]] fields headers (by decide +kernel)

end Decoder

end H2Tap
