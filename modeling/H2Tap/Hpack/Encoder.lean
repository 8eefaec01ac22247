import H2Tap.Lib.FitPrefix
import H2Tap.Hpack.Decoder

/-!
# A conformant HPACK encoder

The peer whose header blocks the decoder observes, after RFC 7541: its dynamic table, its capacity,
the representations it may emit (`Encoder.emit` is `none` for one that is not valid for its table)
and their bytes. An encoder's table always fits its capacity, so that is a field of `Encoder`.
-/

namespace H2Tap

open Lib

/-- A header as the encoder means it. -/
structure Header where
  name : Bytes
  value : Bytes
  deriving DecidableEq, Repr

/-- The size of a table entry (RFC 7541 section 4.1). -/
def Header.size (h : Header) : Nat := h.name.length + h.value.length + minEntrySize

/-- What a decoded field says of the header. -/
def Field.header (f : Field) : Header := ⟨f.name, f.value⟩

@[simp] theorem Field.header_size (f : Field) : f.header.size = f.size := rfl

theorem Header.min_entry_size_le (h : Header) : minEntrySize ≤ h.size := Nat.le_add_left _ _

/-- An encoder's dynamic table, newest entry first, within its capacity. -/
structure Encoder where
  table : List Header
  capacity : Nat
  fits : totalSize Header.size table ≤ capacity

/-- A string literal (section 5.2): its octets and whether they are sent Huffman coded. -/
structure StringLiteral where
  octets : Bytes
  huffman : Bool
  deriving DecidableEq, Repr

/-- The name of a literal: a table index or a string of its own. -/
inductive LiteralName where
  | index (index : Nat)
  | fresh (name : StringLiteral)
  deriving DecidableEq, Repr

/-- The three kinds of literal (section 6.2). -/
inductive Indexing where
  | incremental
  | without
  | never
  deriving DecidableEq, Repr

/-- A representation (section 6). -/
inductive Rep where
  | indexed (index : Nat)
  | literal (indexing : Indexing) (name : LiteralName) (value : StringLiteral)
  | sizeUpdate (n : Nat)
  deriving DecidableEq, Repr

/-- Whether a representation names no index 0 (which would read as a name of its own). -/
def Rep.NamesEntry : Rep → Prop
  | .literal _ (.index index) _ => index ≠ 0
  | _ => True

namespace Encoder

/-- The entry at an index of the combined table (section 2.3.3). -/
def entry (e : Encoder) (index : Nat) : Option Header :=
  if index = 0 then none
  else if index ≤ staticTable.length then (staticField index).map Field.header
  else e.table[index - staticTable.length - 1]?

/-- Adding an entry evicts from the tail; one larger than the table leaves it empty
(section 4.4). -/
def insert (e : Encoder) (h : Header) : Encoder where
  table := fitPrefix Header.size e.capacity (h :: e.table)
  capacity := e.capacity
  fits := totalSize_fitPrefix_le _ _

/-- Changing the capacity evicts from the tail (section 4.3). -/
def resize (e : Encoder) (n : Nat) : Encoder where
  table := fitPrefix Header.size n e.table
  capacity := n
  fits := totalSize_fitPrefix_le _ _

/-- The name a literal stands for. -/
def literalName (e : Encoder) : LiteralName → Option Bytes
  | .index index => (e.entry index).map Header.name
  | .fresh name => some name.octets

/-- The header a representation adds to the list, if any, and the table after it. -/
def emit (e : Encoder) : Rep → Option (Encoder × Option Header)
  | .indexed index => (e.entry index).map fun h => (e, some h)
  | .literal .incremental name value =>
      (e.literalName name).map fun n => (e.insert ⟨n, value.octets⟩, some ⟨n, value.octets⟩)
  | .literal _ name value => (e.literalName name).map fun n => (e, some ⟨n, value.octets⟩)
  | .sizeUpdate n => some (e.resize n, none)

/-- A whole header block: the header list it means and the table after it. -/
def emitAll (e : Encoder) : List Rep → Option (Encoder × List Header)
  | [] => some (e, [])
  | r :: rs => do
      let (e, h) ← e.emit r
      let (e, hs) ← e.emitAll rs
      pure (e, h.toList ++ hs)

/-- What the table becomes and the header that is meant, for a literal. -/
theorem emit_literal_eq {e e' : Encoder} {indexing : Indexing} {name : LiteralName}
    {value : StringLiteral} {header : Option Header}
    (h : e.emit (.literal indexing name value) = some (e', header)) :
    ∃ n, e.literalName name = some n ∧ header = some ⟨n, value.octets⟩ ∧
      e' = if indexing = .incremental then e.insert ⟨n, value.octets⟩ else e := by
  cases indexing <;>
  · simp only [emit, Option.map_eq_some_iff, Prod.mk.injEq] at h
    obtain ⟨n, hn, rfl, rfl⟩ := h
    exact ⟨n, hn, rfl, by simp⟩

/-- A block is emitted one representation at a time. -/
theorem emit_all_cons {e e' : Encoder} {r : Rep} {rs : List Rep} {headers : List Header}
    (h : e.emitAll (r :: rs) = some (e', headers)) :
    ∃ e₁ header later, e.emit r = some (e₁, header) ∧ e₁.emitAll rs = some (e', later) ∧
      headers = header.toList ++ later := by
  simp only [emitAll, bind, Option.bind_eq_some_iff, pure, Option.some.injEq, Prod.mk.injEq] at h
  obtain ⟨⟨e₁, header⟩, hfirst, ⟨e₂, later⟩, hlater, rfl, rfl⟩ := h
  exact ⟨e₁, header, later, hfirst, hlater, rfl⟩

/-- An encoder never names index 0. -/
theorem names_entry_of_emit_all {e e' : Encoder} {rs : List Rep} {headers : List Header}
    (h : e.emitAll rs = some (e', headers)) : ∀ r ∈ rs, r.NamesEntry := by
  induction rs generalizing e headers with
  | nil => simp
  | cons r rs ih =>
      obtain ⟨e₁, header, later, hfirst, hlater, -⟩ := emit_all_cons h
      intro s hs
      rcases List.mem_cons.mp hs with rfl | hs
      · cases s with
        | indexed index => trivial
        | sizeUpdate n => trivial
        | literal indexing name value =>
            cases name with
            | fresh name => trivial
            | index index =>
                obtain ⟨n, hn, -, -⟩ := emit_literal_eq hfirst
                intro hzero
                simp [literalName, entry, hzero] at hn
      · exact ih hlater s hs

end Encoder

/-! ## Conformant blocks -/

/-- A representation that adds a header to the list. -/
def Rep.isField : Rep → Bool
  | .sizeUpdate _ => false
  | _ => true

/-- Dynamic table size updates come first in a block (section 4.2) and their values are table sizes
a 32-bit setting can announce. -/
def conformantBlock : List Rep → Bool
  | .sizeUpdate n :: rs => decide (n < 2 ^ 32) && conformantBlock rs
  | rs => rs.all Rep.isField

theorem conformant_block_of_fields {rs : List Rep} (h : rs.all Rep.isField = true) :
    conformantBlock rs = true := by
  cases rs with
  | nil => rfl
  | cons r rs =>
      cases r with
      | sizeUpdate n => simp [Rep.isField] at h
      | indexed index => exact h
      | literal indexing name value => exact h

/-- A conformant block starts with a size update or has none. -/
theorem conformant_block_cons {r : Rep} {rs : List Rep} (h : conformantBlock (r :: rs) = true) :
    (∃ n, r = .sizeUpdate n ∧ n < 2 ^ 32 ∧ conformantBlock rs = true) ∨
      (r.isField = true ∧ rs.all Rep.isField = true) := by
  cases r with
  | sizeUpdate n =>
      simp only [conformantBlock, Bool.and_eq_true, decide_eq_true_eq] at h
      exact Or.inl ⟨n, rfl, h.1, h.2⟩
  | indexed index => exact Or.inr ⟨rfl, by simpa [conformantBlock, Rep.isField] using h⟩
  | literal indexing name value =>
      exact Or.inr ⟨rfl, by simpa [conformantBlock, Rep.isField] using h⟩

/-- A field representation does not change the capacity. -/
theorem Encoder.emit_capacity {e e' : Encoder} {r : Rep} {header : Option Header}
    (h : e.emit r = some (e', header)) (hfield : r.isField = true) :
    e'.capacity = e.capacity := by
  cases r with
  | indexed index =>
      simp only [emit, Option.map_eq_some_iff, Prod.mk.injEq] at h
      obtain ⟨_, -, rfl, -⟩ := h
      rfl
  | literal indexing name value =>
      obtain ⟨n, -, -, rfl⟩ := emit_literal_eq h
      split <;> rfl
  | sizeUpdate n => cases hfield

theorem Encoder.emit_all_capacity {e e' : Encoder} {rs : List Rep} {headers : List Header}
    (h : e.emitAll rs = some (e', headers)) (hfields : rs.all Rep.isField = true) :
    e'.capacity = e.capacity := by
  induction rs generalizing e headers with
  | nil =>
      cases h
      rfl
  | cons r rs ih =>
      obtain ⟨e₁, header, later, hfirst, hlater, -⟩ := emit_all_cons h
      simp only [List.all_cons, Bool.and_eq_true] at hfields
      rw [ih hlater hfields.2, emit_capacity hfirst hfields.1]

/-! ## Bytes -/

/-- The flags and the prefix width of a literal's first byte. -/
def Indexing.pattern : Indexing → UInt8 × Nat
  | .incremental => (0x40, 6)
  | .without => (0x00, 4)
  | .never => (0x10, 4)

section

variable [HuffmanCoding]

/-- The octets that are sent for a string literal. -/
def StringLiteral.payload (s : StringLiteral) : Bytes :=
  if s.huffman then huffmanEncode s.octets else s.octets

def StringLiteral.wire (s : StringLiteral) : Bytes :=
  writeInt s.payload.length 7 (if s.huffman then 0x80 else 0x00) ++ s.payload

def Rep.wire : Rep → Bytes
  | .indexed index => writeInt index 7 0x80
  | .literal indexing (.index index) value =>
      writeInt index indexing.pattern.2 indexing.pattern.1 ++ value.wire
  | .literal indexing (.fresh name) value =>
      writeInt 0 indexing.pattern.2 indexing.pattern.1 ++ (name.wire ++ value.wire)
  | .sizeUpdate n => writeInt n 5 0x20

/-- The bytes of a header block. -/
def blockWire : List Rep → Bytes
  | [] => []
  | r :: rs => r.wire ++ blockWire rs

end

end H2Tap
