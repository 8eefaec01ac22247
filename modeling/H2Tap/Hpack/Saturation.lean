import H2Tap.Hpack.NeverWrong

/-!
# The saturation proof of exactness

A decoder that joined mid-stream calls its table exact once an entry of its own was evicted, or once
there is no room for another entry of the smallest size. With the encoder's capacity known this is
sound (`exact_table_eq`) as long as the decoder's entries have the encoder's sizes. A literal that
takes its name from an entry the decoder never saw enters the table under a made-up name of another
length, and stays in it when the table is called exact (`placeholder_saturates`).
-/

namespace H2Tap.Decoder

open Lib

/-! ## What the evidence proves -/

/-- The decoder's entries are the newest of the encoder's, and all of them if the table is exact. -/
structure Covered (d : Decoder) (e : Encoder) : Prop where
  accounted : d.Accounted
  newest : d.table.map Field.header <+: e.table
  complete : d.isExact = true → d.table.map Field.header = e.table

/-- The decoder has observed the encoder's capacity. -/
def KnowsCapacity (d : Decoder) (e : Encoder) : Prop :=
  d.capacityObserved = true ∧ d.maxSize = e.capacity

/-- Both tables are cut to one bound, and the decoder's evidence is that its part overflows or is
left without room for an entry. -/
theorem cut_header_eq {cap : Nat} {fields : List Field} {headers : List Header}
    (hpre : fields.map Field.header <+: headers)
    (hfull : cap < totalSize Field.size fields ∨
      cap < totalSize Field.size (fitPrefix Field.size cap fields) + minEntrySize) :
    (fitPrefix Field.size cap fields).map Field.header = fitPrefix Header.size cap headers := by
  have hcut : fitPrefix Header.size cap (fields.map Field.header) =
      (fitPrefix Field.size cap fields).map Field.header := fitPrefix_map _ _ _
  refine hcut.symm.trans (fitPrefix_eq_of_isPrefix hpre (fun h _ => h.min_entry_size_le) ?_)
  rw [hcut, totalSize_map, totalSize_map]
  exact hfull

theorem cut_header_isPrefix {fields : List Field} {headers : List Header} (cap : Nat)
    (hpre : fields.map Field.header <+: headers) :
    (fitPrefix Field.size cap fields).map Field.header <+: fitPrefix Header.size cap headers := by
  have hcut : fitPrefix Header.size cap (fields.map Field.header) =
      (fitPrefix Field.size cap fields).map Field.header := fitPrefix_map _ _ _
  rw [← hcut]
  exact fitPrefix_isPrefix_of_isPrefix cap hpre

namespace Covered

variable {d : Decoder} {e : Encoder}

/-- Nothing is claimed of an encoder by an empty table that is not exact. -/
theorem of_table_nil (h : d.Accounted) (hnil : d.table = []) (hlossy : d.isExact = false)
    (e : Encoder) : d.Covered e := by
  refine ⟨h, by simp [hnil], fun hexact => ?_⟩
  rw [hlossy] at hexact
  cases hexact

theorem of_frame (h : d.Covered e) {d' : Decoder} (hd' : d' = d ∨ d' = d.countUnresolved) :
    d'.Covered e := by
  rcases hd' with rfl | rfl
  · exact h
  · exact ⟨⟨h.accounted.size_eq, h.accounted.size_le, h.accounted.track_le,
      h.accounted.over_empty⟩, h.newest, h.complete⟩

/-- An index that resolves in the decoder's table resolves to the encoder's header. -/
theorem lookup (h : d.Covered e) {index : Nat} {f : Field} {header : Header}
    (hf : d.lookup index = some f) (hh : e.entry index = some header) : f.header = header := by
  unfold Decoder.lookup at hf
  unfold Encoder.entry at hh
  split at hf
  · cases hf
  · next hindex =>
      rw [if_neg hindex] at hh
      split at hf
      · next hstatic =>
          rw [if_pos hstatic, hf] at hh
          simpa using hh
      · next hdynamic =>
          rw [if_neg hdynamic] at hh
          obtain ⟨older, holder⟩ := h.newest
          have hi := (List.getElem?_eq_some_iff.mp hf).1
          rw [← holder, List.getElem?_append_left (by simpa using hi), List.getElem?_map, hf] at hh
          simpa using hh

/-- A table over the tracking limit is covered by any encoder. -/
theorem of_over_limit (h : d.Accounted) (hover : d.overLimit = true) (e : Encoder) : d.Covered e :=
  of_table_nil h (h.over_empty hover) (by simp [isExact, hover]) e

/-- A size update tells the decoder the encoder's capacity. -/
theorem resize (h : d.Covered e) (n : Nat) : (d.resize n).Covered (e.resize n) := by
  have haccounted := h.accounted.resize n
  cases hover : (d.resize n).overLimit with
  | true => exact of_over_limit haccounted hover _
  | false =>
      have htable := resize_table h.accounted n hover
      have hold : d.overLimit = false := by
        rw [resize_overLimit] at hover
        simp_all
      refine ⟨haccounted, ?_, fun hexact => ?_⟩
      · rw [htable]
        exact cut_header_isPrefix n h.newest
      · have hevidence : (d.resize n).exact = true := by
          simpa only [isExact, hover, Bool.not_false, Bool.and_true] using hexact
        rw [resize_exact h.accounted n hover, haccounted.size_eq, htable] at hevidence
        rw [htable]
        simp only [Bool.or_eq_true, decide_eq_true_eq] at hevidence
        rcases hevidence with (hwas | hevicted) | hfull
        · have hcomplete := h.complete (by simp [isExact, hwas, hold])
          simp only [Encoder.resize, ← hcomplete, fitPrefix_map, Field.header_size]
        · exact cut_header_eq h.newest (Or.inl hevicted)
        · exact cut_header_eq h.newest (Or.inr hfull)

/-- Both sides insert the same header at the same capacity. -/
theorem insert (h : d.Covered e) (hcap : d.KnowsCapacity e) (f : Field) :
    (d.insert f).Covered (e.insert f.header) := by
  have haccounted := h.accounted.insert f
  cases hover : d.overLimit with
  | true => exact of_over_limit haccounted (by simpa using hover) _
  | false =>
      have htable := insert_table h.accounted f hover
      have hpre : (f :: d.table).map Field.header <+: f.header :: e.table :=
        (List.prefix_cons_inj _).mpr h.newest
      have hcapacity : d.maxSize = e.capacity := hcap.2
      refine ⟨haccounted, ?_, fun hexact => ?_⟩
      · rw [htable, hcapacity]
        exact cut_header_isPrefix e.capacity hpre
      · have hevidence : (d.insert f).exact = true := by simpa [isExact, hover] using hexact
        rw [insert_exact h.accounted f hover, haccounted.size_eq, htable, hcap.1] at hevidence
        rw [htable]
        simp only [Bool.or_eq_true, Bool.true_and, decide_eq_true_eq, hcapacity] at hevidence ⊢
        rcases hevidence with (hwas | hlarge) | hevicted | hfull
        · have hcomplete := h.complete (by simp [isExact, hwas, hover])
          simp only [Encoder.insert, ← hcomplete, ← List.map_cons, fitPrefix_map,
            Field.header_size]
        · refine cut_header_eq hpre (Or.inl ?_)
          rw [totalSize_cons]
          omega
        · exact cut_header_eq hpre (Or.inl hevicted)
        · exact cut_header_eq hpre (Or.inr hfull)

end Covered

/-! ## Blocks whose inserted names are known -/

/-- The decoder can resolve the name of a literal it is about to insert. -/
def nameKnown (d : Decoder) : Rep → Bool
  | .literal .incremental (.index index) _ => d.overLimit || (d.lookup index).isSome
  | _ => true

/-- `nameKnown` at every representation of a block that is decoded. -/
def namesKnown (d : Decoder) : List Rep → Bool
  | [] => true
  | r :: rs =>
      d.nameKnown r &&
        match d.applyRep r with
        | (_, .error _) => true
        | (d, .ok _) => d.namesKnown rs

/-- `namesKnown` for the block an event brings. -/
def insertedNamesKnown (s : Decoder × Encoder) : WatchEvent → Prop
  | .block rs => s.1.namesKnown rs = true
  | .peerCapacity _ => True

instance (s : Decoder × Encoder) : ∀ event, Decidable (insertedNamesKnown s event)
  | .block rs => inferInstanceAs (Decidable (s.1.namesKnown rs = true))
  | .peerCapacity _ => isTrue trivial

/-- A literal with a name the decoder knows is the encoder's, so both sides insert one header. -/
theorem Covered.apply_literal {d : Decoder} {e : Encoder} (h : d.Covered e)
    (hcap : d.KnowsCapacity e) {indexing : Indexing} {n name value : Bytes} {unknown : Bool}
    (hname : indexing = .incremental → d.overLimit = false → n = name) :
    (d.applyLiteral indexing n unknown value).1.Covered
      (if indexing = .incremental then e.insert ⟨name, value⟩ else e) := by
  cases indexing with
  | without => exact h
  | never => exact h
  | incremental =>
      cases hover : d.overLimit with
      | true =>
          exact .of_over_limit (h.accounted.insert _) ((insert_overLimit _ _).trans hover) _
      | false =>
          obtain rfl := hname rfl hover
          exact h.insert hcap ⟨n, value, false, unknown⟩

/-- An accepted representation keeps the decoder's table covered. -/
theorem covered_apply_rep {d d' : Decoder} {e e' : Encoder} {r : Rep} {f : Option Field}
    {header : Option Header} (h : d.Covered e) (hknown : d.nameKnown r = true)
    (hcap : d.KnowsCapacity e ∨ r.isField = false) (hemit : e.emit r = some (e', header))
    (happly : d.applyRep r = (d', .ok f)) : d'.Covered e' ∧ d'.KnowsCapacity e' := by
  cases r with
  | indexed index =>
      obtain hcap | hfield := hcap
      · have hframe := apply_rep_frame rfl happly
        simp only [Encoder.emit, Option.map_eq_some_iff, Prod.mk.injEq] at hemit
        obtain ⟨hd, -, rfl, -⟩ := hemit
        simp only [applyRep] at happly
        split at happly
        · cases happly
        · split at happly
          · cases happly
          · next hresolve =>
              cases happly
              exact ⟨h.of_frame (resolve_frame hresolve), hframe.2.trans hcap.1,
                hframe.1.trans hcap.2⟩
      · cases hfield
  | literal indexing name value =>
      obtain hcap | hfield := hcap
      · have hframe := apply_rep_frame rfl happly
        have hcapacity := Encoder.emit_capacity hemit rfl
        obtain ⟨n, hn, -, rfl⟩ := Encoder.emit_literal_eq hemit
        refine ⟨?_, hframe.2.trans hcap.1, hframe.1.trans (hcap.2.trans hcapacity.symm)⟩
        cases name with
        | fresh name =>
            obtain rfl : name.octets = n := by simpa [Encoder.literalName] using hn
            cases happly
            exact h.apply_literal hcap fun _ _ => rfl
        | index index =>
            simp only [Encoder.literalName, Option.map_eq_some_iff] at hn
            obtain ⟨entry, hentry, rfl⟩ := hn
            simp only [applyRep] at happly
            split at happly
            · cases happly
            · next d₁ g hresolve =>
                cases happly
                have hd₁ := resolve_frame hresolve
                have hcap₁ : d₁.KnowsCapacity e := by rcases hd₁ with rfl | rfl <;> exact hcap
                refine (h.of_frame hd₁).apply_literal hcap₁ fun hincremental hover => ?_
                subst hincremental
                have hover' : d.overLimit = false := by
                  rcases hd₁ with rfl | rfl <;> exact hover
                simp only [nameKnown, hover', Bool.false_or, Option.isSome_iff_exists] at hknown
                obtain ⟨f, hlookup⟩ := hknown
                rcases resolve_cases hresolve with ⟨f', hf', -, hok⟩ | ⟨hnone, -⟩ | ⟨hnone, -⟩
                · cases hok
                  exact congrArg Header.name (h.lookup hf' hentry)
                · simp [hlookup] at hnone
                · simp [hlookup] at hnone
      · cases hfield
  | sizeUpdate n =>
      cases happly
      cases hemit
      exact ⟨h.resize n, resize_capacityObserved d n, resize_maxSize d n⟩

section

variable [HuffmanCoding]

/-- A conformant block that starts with a size update, or is decoded at a known capacity, keeps the
table covered and the capacity known, and a failure keeps what `finish_block` needs. -/
theorem covered_decode_or_reset {d : Decoder} {e e' : Encoder} {rs : List Rep}
    {headers : List Header} (h : d.Covered e) (hconf : conformantBlock rs = true)
    (hcap : d.KnowsCapacity e ∨ ∃ n later, rs = .sizeUpdate n :: later)
    (hknown : d.namesKnown rs = true) (hemit : e.emitAll rs = some (e', headers)) :
    (d.decodeOrReset (blockWire rs)).1.Covered e' ∧
      (d.decodeOrReset (blockWire rs)).1.KnowsCapacity e' := by
  rcases hdecode : d.decode (blockWire rs) with ⟨d', res⟩
  have hrule := decode_wire_rule
    (I := fun d rs _ => ∃ e coming, d.Covered e ∧ e.emitAll rs = some (e', coming) ∧
      conformantBlock rs = true ∧ d.namesKnown rs = true ∧
      (d.KnowsCapacity e ∨ ∃ n later, rs = .sizeUpdate n :: later))
    (E := fun d => d.Accounted ∧ d.KnowsCapacity e')
    (by
      rintro d r rs out d' err ⟨e, coming, hcov, hrest, hconf, -, hcap⟩ hframe hfails
      rcases conformant_block_cons hconf with ⟨n, rfl, hn, -⟩ | ⟨hfield, hfields⟩
      · have hrange : (Rep.sizeUpdate n).InRange := by
          simp only [Rep.InRange]
          omega
        cases hfails hrange
      · have hcapacity := Encoder.emit_all_capacity hrest (by simp [hfield, hfields])
        obtain hcap | ⟨n, later, heq⟩ := hcap
        · refine ⟨(hcov.of_frame hframe).accounted, ?_⟩
          rcases hframe with rfl | rfl <;> exact ⟨hcap.1, hcap.2.trans hcapacity.symm⟩
        · cases heq
          cases hfield)
    (by
      rintro d r rs out d' f ⟨e, coming, hcov, hrest, hconf, hknown, hcap⟩ happly
      obtain ⟨e₁, header, later, hfirst, hlater, -⟩ := Encoder.emit_all_cons hrest
      simp only [namesKnown, happly, Bool.and_eq_true] at hknown
      have hcap' : d.KnowsCapacity e ∨ r.isField = false := by
        refine hcap.imp_right ?_
        rintro ⟨n, later, heq⟩
        cases heq
        rfl
      obtain ⟨hcov', hcapacity⟩ := covered_apply_rep hcov hknown.1 hcap' hfirst happly
      refine ⟨e₁, later, hcov', hlater, ?_, hknown.2, Or.inl hcapacity⟩
      rcases conformant_block_cons hconf with ⟨-, -, -, hconf⟩ | ⟨-, hfields⟩
      · exact hconf
      · exact conformant_block_of_fields hfields)
    (Encoder.names_entry_of_emit_all hemit) ⟨e, headers, h, hemit, hconf, hknown, hcap⟩ hdecode
  cases res with
  | error err =>
      obtain ⟨haccounted, hcapacity⟩ := hrule.1 err rfl
      simp only [decodeOrReset, hdecode]
      exact ⟨.of_table_nil haccounted.of_reset rfl (by simp [resetPartial, isExact]) e',
        hcapacity⟩
  | ok fields =>
      obtain ⟨e₁, coming, hcov, hend, -, -, hcapacity⟩ := hrule.2 fields rfl
      obtain ⟨rfl, -⟩ : e₁ = e' ∧ _ := by simpa [Encoder.emitAll] using hend
      simp only [decodeOrReset, hdecode]
      refine ⟨hcov, hcapacity.resolve_right ?_⟩
      rintro ⟨n, later, heq⟩
      cases heq

/-- Watching blocks at a known capacity, with known inserted names. -/
theorem covered_watch (s : Decoder × Encoder) (rs : List Rep)
    (h : s.1.Covered s.2 ∧ s.1.KnowsCapacity s.2) (hconf : conformantBlock rs = true)
    (hknown : s.1.namesKnown rs = true) :
    (watch s (.block rs)).1.1.Covered (watch s (.block rs)).1.2 ∧
      (watch s (.block rs)).1.1.KnowsCapacity (watch s (.block rs)).1.2 := by
  simp only [watch]
  split
  · exact h
  · next e headers hemit => exact covered_decode_or_reset h.1 hconf (Or.inl h.2) hknown hemit

/-- A decoder that starts watching an encoder with any hidden table and is told the capacity by the
first block: whenever no literal was inserted under a name the decoder does not know and the table
is called exact, it is the encoder's table. -/
theorem exact_table_eq (limit : Nat) (e : Encoder) (first : List Rep) (blocks : List (List Rep))
    (hstarts : ∃ n later, first = .sizeUpdate n :: later)
    (hsent : (e.emitAll first).isSome = true)
    (hconf : ∀ rs ∈ first :: blocks, conformantBlock rs = true)
    (hknown : Guarded watch insertedNamesKnown (newPartial.setTrackLimit limit, e)
      ((first :: blocks).map .block))
    {d : Decoder} {e' : Encoder} (hrun : (run watch (newPartial.setTrackLimit limit, e)
      ((first :: blocks).map .block)).1 = (d, e')) (hexact : d.isExact = true) :
    d.table.map Field.header = e'.table := by
  obtain ⟨⟨e₁, headers⟩, hemit⟩ := Option.isSome_iff_exists.mp hsent
  obtain ⟨hfirstKnown, hlaterKnown⟩ := hknown
  have hinit : (newPartial.setTrackLimit limit).Covered e := by
    refine .of_table_nil (new_partial_accounted.set_track_limit limit) ?_ ?_ e
    all_goals
      unfold setTrackLimit enforceLimit
      split <;> rfl
  have hstart := covered_decode_or_reset hinit (hconf first List.mem_cons_self)
    (Or.inr hstarts) hfirstKnown hemit
  have hblocks : ∀ event ∈ blocks.map WatchEvent.block,
      ∃ rs, event = .block rs ∧ conformantBlock rs = true := by
    intro event hevent
    obtain ⟨rs, hrs, rfl⟩ := List.mem_map.mp hevent
    exact ⟨rs, rfl, hconf rs (List.mem_cons_of_mem _ hrs)⟩
  have hall := run_invariant watch
    (P := fun s => s.1.Covered s.2 ∧ s.1.KnowsCapacity s.2) (Q := fun _ => True)
    (by
      rintro s event hs ⟨hG, rs, rfl, hrs⟩
      exact ⟨covered_watch s rs hs hrs hG, trivial⟩)
    (by simp only [watch, hemit]; exact hstart) (hlaterKnown.and_inputs hblocks)
  have hcovered := hall.1.1
  simp only [List.map_cons, run] at hrun
  rw [hrun] at hcovered
  exact hcovered.complete hexact

end

/-- An encoder that shrinks to 100 bytes and then fills the table with an entry of its own. -/
theorem exact_table_eq_small_table :
    let _ := noHuffman
    let block : List Rep := [.sizeUpdate 100,
      .literal .incremental (.fresh ⟨asciiBytes "name", false⟩)
        ⟨asciiBytes "a value of forty bytes, more or less ...", false⟩]
    let s := (run watch (newPartial.setTrackLimit 65536, hiddenEncoder) [.block block]).1
    s.1.table.map Field.header = s.2.table := by
  intro _ block s
  exact exact_table_eq 65536 hiddenEncoder block [] ⟨_, _, rfl⟩ (by decide +kernel)
    (by decide +kernel) (by decide +kernel) rfl (by decide +kernel)

/-- The same with a literal that takes its name from the hidden entry: the made-up name is longer
than the encoder's, so the decoder sees a full table where the encoder still has room. -/
theorem placeholder_saturates :
    let _ := noHuffman
    let block : List Rep := [.sizeUpdate 100,
      .literal .incremental (.index 62) ⟨asciiBytes "twenty bytes, or so.", false⟩]
    let s := (run watch (newPartial, hiddenEncoder) [.block block]).1
    conformantBlock block = true ∧ (hiddenEncoder.emitAll block).isSome = true ∧
      s.1.isExact = true ∧ s.1.table.map Field.header ≠ s.2.table := by
  decide +kernel

end H2Tap.Decoder
