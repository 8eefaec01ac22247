import H2Tap.Hpack.Table
import H2Tap.Hpack.Wire

/-!
# A decoder that holds a copy of an encoder's table

A decoder that has seen a connection from its first byte holds the same entries at the same capacity
as the encoder (`Copies`). Every representation that is valid for the table is decoded to the header
it stands for and keeps the copy (`copies_apply_rep`), and so is every block (`copies_decode`).
An observer also applies the table sizes that the encoder's peer announces, as soon as it sees them
(`Encoder.lower`): what it copies is then the table as it would be, had the encoder applied them at
that time.
-/

namespace H2Tap

open Lib

/-- The entry that a decoder keeps for a header. -/
def Header.field (h : Header) : Field := Field.new h.name h.value

@[simp] theorem Header.field_header (h : Header) : h.field.header = h := rfl

@[simp] theorem Header.field_size (h : Header) : h.field.size = h.size := rfl

/-- A field is known and is the encoder's header. -/
def Field.Carries (f : Field) (h : Header) : Prop := f.unknown = false ∧ f.header = h

instance (f : Field) (h : Header) : Decidable (f.Carries h) := inferInstanceAs (Decidable (_ ∧ _))

namespace Encoder

/-- The table after a size that the peer announces, if that is below the capacity. -/
def lower (e : Encoder) (n : Nat) : Encoder := if n < e.capacity then e.resize n else e

/-- The table at the start of a connection. -/
def initial : Encoder where
  table := []
  capacity := defaultTableSize
  fits := Nat.zero_le _

/-- A table has few entries, since each one counts for 32 bytes at least. -/
theorem table_length_le (e : Encoder) : minEntrySize * e.table.length ≤ e.capacity := by
  have hall : ∀ table : List Header, minEntrySize * table.length ≤ totalSize Header.size table := by
    intro table
    induction table with
    | nil => exact Nat.zero_le _
    | cons h table ih =>
        have hmin := h.min_entry_size_le
        rw [totalSize_cons, List.length_cons, Nat.mul_succ]
        omega
  exact (hall e.table).trans e.fits

theorem static_table_length : staticTable.length = 61 := rfl

/-- An index of an entry is small. -/
theorem index_le_of_entry {e : Encoder} {index : Nat} {h : Header}
    (hentry : e.entry index = some h) :
    index ≤ 61 + e.capacity := by
  have hlength := e.table_length_le
  unfold entry at hentry
  rw [static_table_length] at hentry
  split at hentry
  · cases hentry
  · split at hentry
    · omega
    · have hindex := (List.getElem?_eq_some_iff.mp hentry).1
      simp only [minEntrySize] at hlength
      omega

end Encoder

section

variable [HuffmanCoding]

/-- The lengths and table sizes in a representation are those that a decoder with this tracking
limit reads. -/
def Rep.Readable (limit : Nat) : Rep → Prop
  | .indexed _ => True
  | .literal _ (.index _) value => value.payload.length < 2 ^ 35 + 2 ^ 7 - 1
  | .literal _ (.fresh name) value =>
      name.payload.length < 2 ^ 35 + 2 ^ 7 - 1 ∧ value.payload.length < 2 ^ 35 + 2 ^ 7 - 1
  | .sizeUpdate n => n ≤ limit

instance (limit : Nat) (r : Rep) : Decidable (r.Readable limit) := by
  unfold Rep.Readable
  split <;> infer_instance

/-- A valid representation that is readable has integers in range, if the table sizes are those that
a setting can announce. -/
theorem Rep.in_range_of_emit {limit : Nat} {e e' : Encoder} {r : Rep} {header : Option Header}
    (hemit : e.emit r = some (e', header)) (hcapacity : e.capacity < 2 ^ 32)
    (hsize : e'.capacity < 2 ^ 32) (hreadable : r.Readable limit) : r.InRange := by
  cases r with
  | indexed index =>
      simp only [Encoder.emit, Option.map_eq_some_iff] at hemit
      obtain ⟨h, hentry, -⟩ := hemit
      have hindex := Encoder.index_le_of_entry hentry
      simp only [Rep.InRange]
      omega
  | literal indexing name value =>
      cases name with
      | fresh name => exact hreadable
      | index index =>
          obtain ⟨n, hname, -, -⟩ := Encoder.emit_literal_eq hemit
          simp only [Encoder.literalName, Option.map_eq_some_iff] at hname
          obtain ⟨h, hentry, -⟩ := hname
          have hindex := Encoder.index_le_of_entry hentry
          have hpositive : 1 ≤ 2 ^ indexing.pattern.2 := Nat.one_le_two_pow
          refine ⟨?_, hreadable⟩
          omega
  | sizeUpdate n =>
      cases hemit
      simp only [Encoder.resize] at hsize
      simp only [Rep.InRange]
      omega

end

namespace Decoder

/-- The decoder holds the encoder's entries at the encoder's capacity, which is within its tracking
limit, and knows that it does. -/
structure Copies (limit : Nat) (e : Encoder) (d : Decoder) : Prop where
  accounted : d.Accounted
  table : d.table = e.table.map Header.field
  capacity : d.maxSize = e.capacity
  exact : d.exact = true
  tracked : d.overLimit = false
  limit_eq : d.trackLimit = limit

/-- At the start of a connection both tables are empty. -/
theorem copies_initial {limit : Nat} (hlimit : defaultTableSize ≤ limit) :
    (newExact.setTrackLimit limit).Copies limit Encoder.initial := by
  have hset : newExact.setTrackLimit limit = { newExact with trackLimit := limit } := by
    have hnot : ¬ newExact.maxSize > limit := Nat.not_lt.mpr hlimit
    simp only [setTrackLimit, enforceLimit, hnot, if_false]
  refine ⟨new_exact_accounted.set_track_limit limit, ?_, ?_, ?_, ?_, ?_⟩ <;> rw [hset] <;> rfl

namespace Copies

variable {limit : Nat} {e : Encoder} {d : Decoder}

theorem isExact (h : d.Copies limit e) : d.isExact = true := by
  simp only [Decoder.isExact, h.exact, h.tracked, Bool.not_false, Bool.and_self]

theorem insert (h : d.Copies limit e) (header : Header) :
    (d.insert header.field).Copies limit (e.insert header) where
  accounted := h.accounted.insert _
  table := by
    rw [insert_table h.accounted _ h.tracked, h.table, h.capacity, ← List.map_cons, fitPrefix_map]
    rfl
  capacity := by
    rw [insert_maxSize, h.capacity]
    rfl
  exact := insert_exact_of_exact h.exact _
  tracked := by rw [insert_overLimit, h.tracked]
  limit_eq := by rw [insert_trackLimit, h.limit_eq]

theorem resize (h : d.Copies limit e) {n : Nat} (hn : n ≤ limit) :
    (d.resize n).Copies limit (e.resize n) := by
  have htracked : (d.resize n).overLimit = false := by
    rw [resize_overLimit, h.tracked, h.limit_eq]
    simpa using hn
  exact {
    accounted := h.accounted.resize n
    table := by
      rw [resize_table h.accounted n htracked, h.table, fitPrefix_map]
      rfl
    capacity := resize_maxSize d n
    exact := resize_exact_of_exact h.exact n
    tracked := htracked
    limit_eq := by rw [resize_trackLimit, h.limit_eq] }

/-- A table size that the peer announces. -/
theorem apply_peer_capacity (h : d.Copies limit e) (n : Nat) :
    (d.applyPeerCapacity n).Copies limit (e.lower n) := by
  have hobserved : Copies limit e { d with capacityObserved := true } :=
    ⟨⟨h.accounted.size_eq, h.accounted.size_le, h.accounted.track_le, h.accounted.over_empty⟩,
      h.table, h.capacity, h.exact, h.tracked, h.limit_eq⟩
  have hwithin := h.accounted.track_le h.tracked
  rw [h.limit_eq] at hwithin
  unfold applyPeerCapacity Encoder.lower
  rw [← h.capacity]
  split
  · next hlower => exact hobserved.resize (hlower.le.trans hwithin)
  · exact hobserved

/-- An index that the encoder may use is one of an entry that the decoder holds. -/
theorem lookup (h : d.Copies limit e) {index : Nat} {header : Header}
    (hentry : e.entry index = some header) :
    ∃ f, d.lookup index = some f ∧ f.Carries header := by
  unfold Encoder.entry at hentry
  unfold Decoder.lookup
  split at hentry
  · cases hentry
  · next hindex =>
      rw [if_neg hindex]
      split at hentry
      · next hstatic =>
          rw [if_pos hstatic]
          obtain ⟨f, hf, rfl⟩ := Option.map_eq_some_iff.mp hentry
          refine ⟨f, hf, ?_, rfl⟩
          unfold staticField at hf
          rw [if_neg hindex] at hf
          obtain ⟨entry, -, rfl⟩ := Option.map_eq_some_iff.mp hf
          rfl
      · next hdynamic =>
          rw [if_neg hdynamic, h.table, List.getElem?_map, hentry]
          exact ⟨header.field, rfl, rfl, rfl⟩

theorem resolve (h : d.Copies limit e) {index : Nat} {header : Header}
    (hentry : e.entry index = some header) :
    index ≠ 0 ∧ ∃ f, d.resolve index = (d, .ok f) ∧ f.Carries header := by
  obtain ⟨f, hf, hcarries⟩ := h.lookup hentry
  refine ⟨?_, f, by simp only [Decoder.resolve, hf], hcarries⟩
  rintro rfl
  simp [Encoder.entry] at hentry

/-- A literal with the encoder's name. -/
theorem apply_literal (h : d.Copies limit e) (indexing : Indexing) (header : Header) :
    (d.applyLiteral indexing header.name false header.value).1.Copies limit
        (if indexing = .incremental then e.insert header else e) ∧
      Option.Rel Field.Carries (d.applyLiteral indexing header.name false header.value).2
        (some header) ∧
      (d.applyLiteral indexing header.name false header.value).1.unresolved = d.unresolved := by
  cases indexing with
  | incremental => exact ⟨h.insert header, .some ⟨rfl, rfl⟩, insert_unresolved d header.field⟩
  | without => exact ⟨h, .some ⟨rfl, rfl⟩, rfl⟩
  | never => exact ⟨h, .some ⟨rfl, rfl⟩, rfl⟩

end Copies

section

variable [HuffmanCoding] {limit : Nat}

/-- A representation that is valid for the table is accepted, shows the header that it stands for
and leaves a copy. -/
theorem copies_apply_rep {d : Decoder} {e e' : Encoder} {r : Rep} {header : Option Header}
    (h : d.Copies limit e) (hemit : e.emit r = some (e', header)) (hreadable : r.Readable limit) :
    ∃ d' f, d.applyRep r = (d', .ok f) ∧ d'.Copies limit e' ∧
      Option.Rel Field.Carries f header ∧ d'.unresolved = d.unresolved := by
  cases r with
  | indexed index =>
      simp only [Encoder.emit, Option.map_eq_some_iff, Prod.mk.injEq] at hemit
      obtain ⟨entry, hentry, rfl, rfl⟩ := hemit
      obtain ⟨hindex, f, hresolve, hcarries⟩ := h.resolve hentry
      exact ⟨d, some f, by simp only [applyRep, hindex, if_false, hresolve], h, .some hcarries, rfl⟩
  | literal indexing name value =>
      obtain ⟨n, hname, rfl, rfl⟩ := Encoder.emit_literal_eq hemit
      obtain ⟨hcopies, hcarries, hcount⟩ := h.apply_literal indexing ⟨n, value.octets⟩
      cases name with
      | index index =>
          simp only [Encoder.literalName, Option.map_eq_some_iff] at hname
          obtain ⟨entry, hentry, rfl⟩ := hname
          obtain ⟨hindex, f, hresolve, hknown, rfl⟩ := h.resolve hentry
          refine ⟨_, _, ?_, hcopies, hcarries, hcount⟩
          simp only [applyRep, hresolve, hknown]
          rfl
      | fresh name =>
          obtain rfl : name.octets = n := by simpa [Encoder.literalName] using hname
          exact ⟨_, _, rfl, hcopies, hcarries, hcount⟩
  | sizeUpdate n =>
      cases hemit
      exact ⟨_, _, rfl, h.resize hreadable, .none, resize_unresolved d n⟩

omit [HuffmanCoding] in
/-- Size updates of a conformant block are table sizes that a setting can announce. -/
theorem capacity_lt_of_emit {e e' : Encoder} {r : Rep} {rs : List Rep} {header : Option Header}
    (hconf : conformantBlock (r :: rs) = true) (hemit : e.emit r = some (e', header))
    (hcapacity : e.capacity < 2 ^ 32) : e'.capacity < 2 ^ 32 ∧ conformantBlock rs = true := by
  rcases conformant_block_cons hconf with ⟨n, rfl, hn, hrest⟩ | ⟨hfield, hfields⟩
  · cases hemit
    exact ⟨hn, hrest⟩
  · rw [Encoder.emit_capacity hemit hfield]
    exact ⟨hcapacity, conformant_block_of_fields hfields⟩

/-- A block that is valid for the table is decoded to its headers, without an unresolved reference,
and leaves a copy. -/
theorem copies_decode {d : Decoder} {e e' : Encoder} {rs : List Rep} {headers : List Header}
    (h : d.Copies limit e) (hcapacity : e.capacity < 2 ^ 32)
    (hemit : e.emitAll rs = some (e', headers)) (hconf : conformantBlock rs = true)
    (hreadable : ∀ r ∈ rs, r.Readable limit) :
    ∃ d' fields, d.decode (blockWire rs) = (d', .ok fields) ∧ d'.Copies limit e' ∧
      e'.capacity < 2 ^ 32 ∧ List.Forall₂ Field.Carries fields headers ∧
      d'.unresolved = d.unresolved := by
  -- the headers split into those already shown and those of the representations to come
  let I : Decoder → List Rep → List Field → Prop := fun d₁ rs out =>
    ∃ e shown coming, d₁.Copies limit e ∧ e.capacity < 2 ^ 32 ∧
      e.emitAll rs = some (e', coming) ∧ conformantBlock rs = true ∧
      (∀ r ∈ rs, r.Readable limit) ∧ List.Forall₂ Field.Carries out shown ∧
      headers = shown ++ coming ∧ d₁.unresolved = d.unresolved
  have hstep : ∀ d₁ r rs out, I d₁ (r :: rs) out → r.InRange ∧ ∃ d₂ f,
      d₁.applyRep r = (d₂, .ok f) ∧ I d₂ rs (out ++ f.toList) := by
    rintro d₁ r rs out ⟨e, shown, coming, hcopies, hcapacity, hrest, hconf, hreadable, hshown,
      hsplit, hcount⟩
    obtain ⟨e₁, header, later, hfirst, hlater, rfl⟩ := Encoder.emit_all_cons hrest
    obtain ⟨hcapacity₁, hconf₁⟩ := capacity_lt_of_emit hconf hfirst hcapacity
    have hr := hreadable r List.mem_cons_self
    obtain ⟨d₂, f, happly, hcopies₁, hcarries, hcount₁⟩ := copies_apply_rep hcopies hfirst hr
    refine ⟨Rep.in_range_of_emit hfirst hcapacity hcapacity₁ hr, d₂, f, happly, e₁,
      shown ++ header.toList, later, hcopies₁, hcapacity₁, hlater, hconf₁,
      fun r hr => hreadable r (List.mem_cons_of_mem _ hr), List.rel_append hshown ?_,
      by rw [hsplit, List.append_assoc], hcount₁.trans hcount⟩
    cases hcarries with
    | none => exact .nil
    | some hcarries => exact .cons hcarries .nil
  rcases hdecode : d.decode (blockWire rs) with ⟨d', res⟩
  have hrule := decode_wire_rule (I := I) (E := fun _ => False)
    (by
      intro d₁ r rs out d₂ err hI _ hfails
      obtain ⟨hrange, d₃, f, happly, -⟩ := hstep d₁ r rs out hI
      have herror := hfails hrange
      rw [happly] at herror
      cases herror)
    (by
      intro d₁ r rs out d₂ f hI happly
      obtain ⟨-, d₃, f', happly', hnext⟩ := hstep d₁ r rs out hI
      rw [happly] at happly'
      cases happly'
      exact hnext)
    (Encoder.names_entry_of_emit_all hemit)
    ⟨e, [], headers, h, hcapacity, hemit, hconf, hreadable, .nil, rfl, rfl⟩ hdecode
  cases res with
  | error err => exact (hrule.1 err rfl).elim
  | ok fields =>
      obtain ⟨e₁, shown, coming, hcopies, hcapacity₁, hend, -, -, hshown, hsplit, hcount⟩ :=
        hrule.2 fields rfl
      obtain ⟨rfl, rfl⟩ : e₁ = e' ∧ coming = [] := by
        simpa [Encoder.emitAll, eq_comm] using hend
      rw [hsplit, List.append_nil]
      exact ⟨d', fields, rfl, hcopies, hcapacity₁, hshown, hcount⟩

end

end Decoder

/-! ## Two tables that are sent the same blocks -/

namespace Encoder

/-- The table `v` holds the newest entries of `e`, at a capacity that is no larger. -/
structure Within (v e : Encoder) : Prop where
  table : v.table <+: e.table
  capacity : v.capacity ≤ e.capacity

variable {v e : Encoder}

theorem within_refl (e : Encoder) : e.Within e := ⟨List.prefix_refl _, le_refl _⟩

theorem Within.insert (h : v.Within e) (header : Header) :
    (v.insert header).Within (e.insert header) where
  table := fitPrefix_maximal
    ((fitPrefix_isPrefix _ _).trans ((List.prefix_cons_inj header).mpr h.table))
    ((totalSize_fitPrefix_le _ _).trans h.capacity)
  capacity := h.capacity

theorem Within.resize (h : v.Within e) (n : Nat) : (v.resize n).Within (e.resize n) :=
  ⟨fitPrefix_isPrefix_of_isPrefix n h.table, le_refl n⟩

/-- A size that the observer has seen and the encoder has not. -/
theorem Within.lower (h : v.Within e) (n : Nat) : (v.lower n).Within e := by
  unfold Encoder.lower
  split
  · next hlower =>
      exact ⟨(fitPrefix_isPrefix n v.table).trans h.table, hlower.le.trans h.capacity⟩
  · exact h

theorem Within.entry (h : v.Within e) {index : Nat} {header : Header}
    (hentry : v.entry index = some header) : e.entry index = some header := by
  unfold Encoder.entry at hentry ⊢
  split at hentry
  · cases hentry
  · next hindex =>
      rw [if_neg hindex]
      split at hentry
      · next hstatic => rwa [if_pos hstatic]
      · next hdynamic =>
          rw [if_neg hdynamic]
          obtain ⟨hlength, rfl⟩ := List.getElem?_eq_some_iff.mp hentry
          obtain ⟨older, hsplit⟩ := h.table
          rw [← hsplit, List.getElem?_append_left hlength, List.getElem?_eq_getElem hlength]

theorem Within.literal_name (h : v.Within e) {name : LiteralName} {n : Bytes}
    (hname : v.literalName name = some n) : e.literalName name = some n := by
  cases name with
  | fresh name => exact hname
  | index index =>
      obtain ⟨header, hentry, rfl⟩ := Option.map_eq_some_iff.mp hname
      simp only [literalName, h.entry hentry, Option.map_some]

/-- What is valid for both tables stands for the same header. -/
theorem Within.emit (h : v.Within e) {v' e' : Encoder} {r : Rep} {header header' : Option Header}
    (hv : v.emit r = some (v', header)) (he : e.emit r = some (e', header')) :
    v'.Within e' ∧ header = header' := by
  cases r with
  | indexed index =>
      simp only [Encoder.emit, Option.map_eq_some_iff, Prod.mk.injEq] at hv he
      obtain ⟨entry, hentry, rfl, rfl⟩ := hv
      obtain ⟨entry', hentry', rfl, rfl⟩ := he
      rw [h.entry hentry] at hentry'
      exact ⟨h, by rw [Option.some.inj hentry']⟩
  | literal indexing name value =>
      obtain ⟨n, hname, rfl, rfl⟩ := emit_literal_eq hv
      obtain ⟨n', hname', rfl, rfl⟩ := emit_literal_eq he
      rw [h.literal_name hname] at hname'
      obtain rfl := Option.some.inj hname'
      refine ⟨?_, rfl⟩
      split
      · exact h.insert _
      · exact h
  | sizeUpdate n =>
      cases hv
      cases he
      exact ⟨h.resize n, rfl⟩

theorem Within.emit_all (h : v.Within e) {v' e' : Encoder} {rs : List Rep}
    {headers headers' : List Header} (hv : v.emitAll rs = some (v', headers))
    (he : e.emitAll rs = some (e', headers')) : v'.Within e' ∧ headers = headers' := by
  induction rs generalizing v e headers headers' with
  | nil =>
      cases hv
      cases he
      exact ⟨h, rfl⟩
  | cons r rs ih =>
      obtain ⟨v₁, header, later, hfirst, hlater, rfl⟩ := emit_all_cons hv
      obtain ⟨e₁, header', later', hfirst', hlater', rfl⟩ := emit_all_cons he
      obtain ⟨hnext, rfl⟩ := h.emit hfirst hfirst'
      obtain ⟨hend, rfl⟩ := ih hnext hlater hlater'
      exact ⟨hend, rfl⟩

end Encoder

end H2Tap
