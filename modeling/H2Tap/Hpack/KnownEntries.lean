import H2Tap.Hpack.Table
import H2Tap.Hpack.DecodeLoop

/-!
# Where unknown fields come from

A field is unknown when its name or value came from an index below the observed entries. A block
counts such references as it makes them, but a literal that is inserted under a placeholder name
leaves an unknown entry in the table, and later references to it are not counted. As long as no such
literal is inserted, the table holds known entries only and the count tells whether a block has
unknown fields (`known_entries_decode`).
-/

namespace H2Tap.Decoder

/-- Every entry of the table was observed with its name. -/
def KnownEntries (d : Decoder) : Prop := ∀ f ∈ d.table, f.unknown = false

theorem KnownEntries.of_subset {d d' : Decoder} (h : d.KnownEntries)
    (hsub : d'.table ⊆ d.table) : d'.KnownEntries := fun f hf => h f (hsub hf)

namespace KnownEntries

variable {d : Decoder}

theorem of_reset : d.resetPartial.KnownEntries := by
  intro f hf
  cases hf

theorem resize (h : d.KnownEntries) (n : Nat) : (d.resize n).KnownEntries :=
  h.of_subset (resize_table_isPrefix d n).subset

theorem apply_peer_capacity (h : d.KnownEntries) (n : Nat) : (d.applyPeerCapacity n).KnownEntries :=
  h.of_subset (apply_peer_capacity_table_isPrefix d n).subset

/-- An entry is inserted with its name, or the table is not tracked. -/
theorem insert (h : d.KnownEntries) {f : Field}
    (hknown : d.overLimit = true ∨ f.unknown = false) : (d.insert f).KnownEntries := by
  rcases hknown with hover | hf
  · have hinsert : d.insert f = d := by simp [Decoder.insert, hover]
    rw [hinsert]
    exact h
  · intro g hg
    rcases List.mem_cons.mp (insert_table_subset d f hg) with rfl | hg
    · exact hf
    · exact h g hg

/-- What an index resolves to is known. -/
theorem lookup (h : d.KnownEntries) {index : Nat} {f : Field} (hf : d.lookup index = some f) :
    f.unknown = false := by
  unfold Decoder.lookup at hf
  split at hf
  · cases hf
  · split at hf
    · unfold staticField at hf
      split at hf
      · cases hf
      · obtain ⟨e, -, rfl⟩ := Option.map_eq_some_iff.mp hf
        rfl
    · exact h f (List.mem_of_getElem? hf)

/-- Resolving gives a known field, or counts an unresolved reference. -/
theorem resolve (h : d.KnownEntries) {d' : Decoder} {index : Nat} {f : Field}
    (hf : d.resolve index = (d', .ok f)) :
    d'.KnownEntries ∧ (d' = d ∧ f.unknown = false ∨ d' = d.countUnresolved) := by
  rcases resolve_cases hf with ⟨g, hg, rfl, hok⟩ | ⟨-, -, -, hok⟩ | ⟨-, -, rfl, -⟩
  · cases hok
    exact ⟨h, Or.inl ⟨rfl, h.lookup hg⟩⟩
  · cases hok
  · exact ⟨h, Or.inr rfl⟩

end KnownEntries

variable [HuffmanDecoding]

/-- A literal about to be inserted names no index, or an entry the decoder holds. -/
def insertsKnownName (d : Decoder) (b : Bytes) : Bool :=
  match b with
  | [] => true
  | first :: _ =>
      if first &&& 0xc0 = 0x40 then
        match readInt b 6 with
        | .error _ => true
        | .ok (index, _) => d.overLimit || index == 0 || (d.lookup index).isSome
      else true

/-- `insertsKnownName` at every iteration of the decode loop. -/
def blockInsertsKnownNames (d : Decoder) (block : Bytes) : Bool :=
  (d.iterations block).all fun s => s.1.insertsKnownName s.2

/-- A literal is read with a known name, or counts an unresolved reference. -/
theorem KnownEntries.read_literal {d d' : Decoder} (h : d.KnownEntries) {b rest : Bytes}
    {width : Nat} {f : Field} (hlit : d.readLiteral b width = (d', .ok (f, rest))) :
    d'.KnownEntries ∧ (d' = d ∧ f.unknown = false ∨ d' = d.countUnresolved) := by
  obtain ⟨index, b', -, -, ⟨-, rfl, hf⟩ | ⟨-, e, hresolve, -, hunknown⟩⟩ := read_literal_ok hlit
  · exact ⟨h, Or.inl ⟨rfl, hf⟩⟩
  · obtain ⟨hknown, hcases⟩ := h.resolve hresolve
    refine ⟨hknown, hcases.imp_left ?_⟩
    rintro ⟨rfl, he⟩
    exact ⟨rfl, hunknown.trans he⟩

/-- A literal that names an entry the decoder holds has a known name. -/
theorem KnownEntries.unknown_of_inserts_known_name {d d' : Decoder} (h : d.KnownEntries)
    {first : UInt8} {tail rest : Bytes} {f : Field} (hpattern : first &&& 0xc0 = 0x40)
    (hlit : d.readLiteral (first :: tail) 6 = (d', .ok (f, rest)))
    (hguard : d.insertsKnownName (first :: tail) = true) :
    d.overLimit = true ∨ f.unknown = false := by
  obtain ⟨index, b', hint, -, hname⟩ := read_literal_ok hlit
  simp only [insertsKnownName, hpattern, if_true, hint, Bool.or_eq_true, beq_iff_eq] at hguard
  rcases hguard with (hover | hzero) | hsome
  · exact Or.inl hover
  · rcases hname with ⟨-, -, hf⟩ | ⟨hindex, -⟩
    · exact Or.inr hf
    · exact absurd hzero hindex
  · rcases hname with ⟨-, -, hf⟩ | ⟨-, e, hresolve, -, hunknown⟩
    · exact Or.inr hf
    · rcases resolve_cases hresolve with ⟨g, hg, -, hok⟩ | ⟨hnone, -⟩ | ⟨hnone, -⟩
      · cases hok
        exact Or.inr (hunknown.trans (h.lookup hg))
      · simp [hnone] at hsome
      · simp [hnone] at hsome

/-- The table stays known, and fields are known unless references were counted. -/
structure KnownSoFar (start : Nat) (d : Decoder) (out : List Field) : Prop where
  entries : d.KnownEntries
  counted : start ≤ d.unresolved
  fields : d.unresolved = start → ∀ f ∈ out, f.unknown = false

omit [HuffmanDecoding] in
/-- An iteration that pushes a field which is known or was counted. -/
theorem KnownSoFar.push {start : Nat} {d d' : Decoder} {out : List Field} {f : Field}
    (h : KnownSoFar start d out) (hentries : d'.KnownEntries)
    (hunresolved : d'.unresolved = d.unresolved ∧ f.unknown = false ∨
      d'.unresolved = d.unresolved + 1) : KnownSoFar start d' (out ++ [f]) := by
  have hcounted := h.counted
  rcases hunresolved with ⟨hsame, hf⟩ | hmore
  · refine ⟨hentries, by omega, fun heq g hg => ?_⟩
    rcases List.mem_append.mp hg with hg | hg
    · exact h.fields (hsame.symm.trans heq) g hg
    · obtain rfl := List.mem_singleton.mp hg
      exact hf
  · exact ⟨hentries, by omega, fun heq => by omega⟩

/-- Decoding a block that inserts known names only keeps the table known, and without counted
references all its fields are known. -/
theorem known_entries_decode {d d' : Decoder} {block : Bytes}
    {res : Except HpackError (List Field)} (h : d.KnownEntries)
    (hguard : d.blockInsertsKnownNames block = true) (hdecode : d.decode block = (d', res)) :
    d'.KnownEntries ∧
      ∀ fields, res = .ok fields → d'.unresolved - d.unresolved = 0 →
        ∀ f ∈ fields, f.unknown = false := by
  have hunresolved : ∀ {d d' : Decoder} {f g : Field},
      d' = d ∧ f.unknown = false ∨ d' = d.countUnresolved → g.unknown = f.unknown →
        d'.unresolved = d.unresolved ∧ g.unknown = false ∨ d'.unresolved = d.unresolved + 1 := by
    rintro d d' f g (⟨rfl, hf⟩ | rfl) hg
    · exact Or.inl ⟨rfl, hg.trans hf⟩
    · exact Or.inr rfl
  have hrule := decode_loop_rule (I := KnownSoFar d.unresolved) (E := KnownEntries)
    (G := fun d b => d.insertsKnownName b = true)
    (by
      intro e first tail out e' err hI _ hrep
      cases decode_rep_cases hrep with
      | failed _ _ he' =>
          rcases he' with rfl | rfl
          · exact hI.entries
          · exact hI.entries.of_subset (List.Subset.refl _))
    (by
      intro e first tail out e' f rest hI hG hrep
      cases decode_rep_cases hrep with
      | indexed _ index g _ hint hindex hresolve =>
          obtain ⟨hentries, hcases⟩ := hI.entries.resolve hresolve
          exact hI.push hentries (hunresolved hcases rfl)
      | incremental e₁ g _ hpattern hlit =>
          obtain ⟨hentries, hcases⟩ := hI.entries.read_literal hlit
          have hname := hI.entries.unknown_of_inserts_known_name hpattern hlit hG
          have hover : e₁.overLimit = e.overLimit := by
            rcases read_literal_frame hlit with rfl | rfl <;> rfl
          refine hI.push (hentries.insert (by rwa [hover])) ?_
          rw [insert_unresolved]
          exact hunresolved hcases rfl
      | sizeUpdate n _ hint =>
          refine ⟨hI.entries.resize n, ?_, ?_⟩
          · rw [resize_unresolved]
            exact hI.counted
          · rw [resize_unresolved, Option.toList_none, List.append_nil]
            exact hI.fields
      | literal _ g sensitive _ hlit =>
          obtain ⟨hentries, hcases⟩ := hI.entries.read_literal hlit
          exact hI.push hentries (hunresolved hcases rfl))
    (List.all_eq_true.mp hguard) ⟨h, le_refl _, fun _ f hf => by cases hf⟩ hdecode
  cases res with
  | error err => exact ⟨hrule.1 err rfl, fun fields hok => by cases hok⟩
  | ok fields =>
      have hend := hrule.2 fields rfl
      refine ⟨hend.entries, fun fields' hok hzero => ?_⟩
      cases hok
      have hcounted := hend.counted
      exact hend.fields (by omega)

end H2Tap.Decoder
