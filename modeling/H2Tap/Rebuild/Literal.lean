import H2Tap.Hpack.DecodeLoop
import H2Tap.Rebuild.Encode

/-!
# The normalized encoding

`encode_literal` writes every field as a literal with a name of its own. A decoder reads such a
field back without looking at its table or changing it (`decode_rep_literal_field`), whatever
follows, so a header list is read back by any decoder in any state (`decode_encode_literal`).
-/

namespace H2Tap

/-- What is read back of a field: whether its name was resolved is not encoded. -/
def Field.resolved (f : Field) : Field := { f with unknown := false }

/-- The lengths of the field are in the range that `read_int` accepts. -/
def Field.Encodable (f : Field) : Prop :=
  f.name.length < 2 ^ 35 + 2 ^ 7 - 1 ∧ f.value.length < 2 ^ 35 + 2 ^ 7 - 1

instance (f : Field) : Decidable f.Encodable := inferInstanceAs (Decidable (_ ∧ _))

section

variable [HuffmanDecoding]

/-- `read_string` undoes `write_string`. -/
theorem read_string_write_string {s : Bytes} (h : s.length < 2 ^ 35 + 2 ^ 7 - 1) (rest : Bytes) :
    readString (writeString s ++ rest) = .ok (s, rest) := by
  obtain ⟨low, tail, hhead, hlow⟩ := write_int_head s.length 7 0x00
  have hraw : (0x00 ||| low.toUInt8) &&& 0x80 = 0 := by
    have hall : ∀ w < 2 ^ 7, (0x00 ||| w.toUInt8) &&& 0x80 = 0 := by decide +kernel
    exact hall low hlow
  have hfirst : (writeString s ++ rest).head? = some (0x00 ||| low.toUInt8) := by
    rw [writeString, hhead]
    rfl
  have hint : readInt (writeString s ++ rest) 7 = .ok (s.length, s ++ rest) := by
    rw [writeString, List.append_assoc]
    exact read_int_write_int (s ++ rest) (by decide) (by decide) h
  have hlength : ¬s.length > (s ++ rest).length := by
    rw [List.length_append]
    omega
  simp only [readString, hfirst, hint, hlength, if_false, hraw, if_true, List.take_left,
    List.drop_left]

/-- A longer string is not read back, since `read_int` gives up on its length. -/
theorem read_string_of_long {s : Bytes} (h : 2 ^ 35 + 2 ^ 7 - 1 ≤ s.length) (rest : Bytes) :
    readString (writeString s ++ rest) = .error .intOverflow := by
  obtain ⟨low, tail, hhead, -⟩ := write_int_head s.length 7 0x00
  have hfirst : (writeString s ++ rest).head? = some (0x00 ||| low.toUInt8) := by
    rw [writeString, hhead]
    rfl
  have hint : readInt (writeString s ++ rest) 7 = .error .intOverflow := by
    rw [writeString, List.append_assoc]
    exact read_int_write_int_of_large (s ++ rest) (by decide) (by decide) h
  simp only [readString, hfirst, hint]

namespace Decoder

omit [HuffmanDecoding] in
/-- The prefix of a literal with a name of its own. -/
theorem read_int_fresh_name (sensitive : Bool) (rest : Bytes) :
    readInt ((if sensitive then 0x10 else 0x00) :: rest) 4 = .ok (0, rest) := by
  cases sensitive <;> rfl

/-- An encoded field is read back, and the decoder stays as it is. -/
theorem decode_rep_literal_field (d : Decoder) {f : Field} (h : f.Encodable) (rest : Bytes) :
    d.decodeRep (if f.sensitive then 0x10 else 0x00)
        ((if f.sensitive then 0x10 else 0x00) ::
          (writeString f.name ++ (writeString f.value ++ rest))) =
      (d, .ok (some f.resolved, rest)) := by
  have hlit : d.readLiteral ((if f.sensitive then 0x10 else 0x00) ::
      (writeString f.name ++ (writeString f.value ++ rest))) 4 =
      (d, .ok (⟨f.name, f.value, false, false⟩, rest)) := by
    simp only [readLiteral, read_int_fresh_name, if_true, read_string_write_string h.1, readValue,
      read_string_write_string h.2]
  cases hsensitive : f.sensitive with
  | true =>
      have hpattern : (0x10 : UInt8) &&& 0x80 = 0 ∧ (0x10 : UInt8) &&& 0xc0 ≠ 0x40 ∧
          (0x10 : UInt8) &&& 0xe0 ≠ 0x20 ∧ (0x10 : UInt8) &&& 0xf0 = 0x10 := by decide
      obtain ⟨h80, hc0, he0, hf0⟩ := hpattern
      simp only [hsensitive, if_true] at hlit ⊢
      simp only [decodeRep, h80, hc0, he0, hf0, ne_eq, not_true_eq_false, if_false, if_true, hlit,
        Field.resolved, hsensitive]
  | false =>
      have hpattern : (0x00 : UInt8) &&& 0x80 = 0 ∧ (0x00 : UInt8) &&& 0xc0 ≠ 0x40 ∧
          (0x00 : UInt8) &&& 0xe0 ≠ 0x20 ∧ (0x00 : UInt8) &&& 0xf0 ≠ 0x10 := by decide
      obtain ⟨h80, hc0, he0, hf0⟩ := hpattern
      simp only [hsensitive, Bool.false_eq_true, if_false] at hlit ⊢
      simp only [decodeRep, h80, hc0, he0, hf0, ne_eq, not_true_eq_false, if_false, hlit,
        Field.resolved, hsensitive]

/-- A field whose name is too long is refused. -/
theorem decode_literal_of_long_name (d : Decoder) {f : Field} (hsensitive : f.sensitive = false)
    (h : 2 ^ 35 + 2 ^ 7 - 1 ≤ f.name.length) :
    ∃ d', d.decode (encodeLiteral [f]) = (d', .error .intOverflow) := by
  have hwire : encodeLiteral [f] = 0x00 :: (writeString f.name ++ (writeString f.value ++ [])) := by
    simp only [encodeLiteral, List.flatMap_cons, List.flatMap_nil, hsensitive, Bool.false_eq_true,
      if_false, List.append_nil]
  have hprefix := read_int_fresh_name false (writeString f.name ++ (writeString f.value ++ []))
  simp only [Bool.false_eq_true, if_false] at hprefix
  have hlit : d.readLiteral (encodeLiteral [f]) 4 = (d, .error .intOverflow) := by
    rw [hwire]
    simp only [readLiteral, hprefix, if_true, read_string_of_long h]
  have hpattern : (0x00 : UInt8) &&& 0x80 = 0 ∧ (0x00 : UInt8) &&& 0xc0 ≠ 0x40 ∧
      (0x00 : UInt8) &&& 0xe0 ≠ 0x20 ∧ (0x00 : UInt8) &&& 0xf0 ≠ 0x10 := by decide
  obtain ⟨h80, hc0, he0, hf0⟩ := hpattern
  have hrep : d.decodeRep 0x00 (encodeLiteral [f]) = (d, .error .intOverflow) := by
    simp only [decodeRep, h80, hc0, he0, hf0, ne_eq, not_true_eq_false, if_false, hlit]
  rw [hwire] at hrep
  exact ⟨d, by rw [hwire, decode, decode_loop_of_error hrep]⟩

/-- The fields pushed so far stand before all others. -/
theorem decode_loop_prepend (d : Decoder) (b : Bytes) (before out : List Field) :
    d.decodeLoop b (before ++ out) =
      ((d.decodeLoop b out).1, (d.decodeLoop b out).2.map (before ++ ·)) := by
  induction d, b, out using decodeLoop.induct with
  | case1 d out => simp only [decode_loop_nil, Except.map]
  | case2 d out first tail d' e hrep =>
      simp only [decode_loop_of_error hrep, Except.map]
  | case3 d out first tail d' f rest hrep ih =>
      simp only [decode_loop_of_ok hrep]
      rw [List.append_assoc, ih]

/-- Encoded fields are read back ahead of what follows. -/
theorem decode_loop_encode_literal (d : Decoder) {fields : List Field}
    (h : ∀ f ∈ fields, f.Encodable) (rest : Bytes) (out : List Field) :
    d.decodeLoop (encodeLiteral fields ++ rest) out =
      d.decodeLoop rest (out ++ fields.map Field.resolved) := by
  induction fields generalizing out with
  | nil => rw [encodeLiteral, List.flatMap_nil, List.nil_append, List.map_nil, List.append_nil]
  | cons f fields ih =>
      have hwire : encodeLiteral (f :: fields) ++ rest = (if f.sensitive then 0x10 else 0x00) ::
          (writeString f.name ++ (writeString f.value ++ (encodeLiteral fields ++ rest))) := by
        simp only [encodeLiteral, List.flatMap_cons, List.cons_append, List.append_assoc]
      have hrep := decode_rep_literal_field d (h f List.mem_cons_self)
        (encodeLiteral fields ++ rest)
      rw [hwire, decode_loop_of_ok hrep, ih fun g hg => h g (List.mem_cons_of_mem f hg)]
      rw [Option.toList_some, List.append_assoc, List.singleton_append, List.map_cons]

/-- What follows encoded fields is decoded as if it stood alone. -/
theorem decode_encode_literal_append (d : Decoder) {fields : List Field}
    (h : ∀ f ∈ fields, f.Encodable) (rest : Bytes) :
    d.decode (encodeLiteral fields ++ rest) =
      ((d.decode rest).1, (d.decode rest).2.map (fields.map Field.resolved ++ ·)) := by
  rw [decode, decode_loop_encode_literal d h, List.nil_append]
  have hprepend := decode_loop_prepend d rest (fields.map Field.resolved) []
  rwa [List.append_nil] at hprepend

/-- Encoded fields are read back. -/
theorem decode_encoded_fields (d : Decoder) {fields : List Field}
    (h : ∀ f ∈ fields, f.Encodable) :
    d.decode (encodeLiteral fields) = (d, .ok (fields.map Field.resolved)) := by
  have hnone := decode_encode_literal_append d h []
  rw [List.append_nil] at hnone
  rw [hnone, decode, decode_loop_nil]
  simp only [Except.map, List.append_nil]

/-- The normalized encoding of a header list is read back by every decoder and changes none, and a
block that follows it is read as before. -/
theorem decode_encode_literal (d : Decoder) (fields : List Field)
    (h : ∀ f ∈ fields, f.name.length < 2 ^ 35 ∧ f.value.length < 2 ^ 35) :
    d.decode (encodeLiteral fields) = (d, .ok (fields.map Field.resolved)) ∧
      ∀ suffix d' later, d.decode suffix = (d', .ok later) →
        d.decode (encodeLiteral fields ++ suffix) =
          (d', .ok (fields.map Field.resolved ++ later)) := by
  have hencodable : ∀ f ∈ fields, f.Encodable := fun f hf => by
    obtain ⟨hname, hvalue⟩ := h f hf
    exact ⟨by omega, by omega⟩
  constructor
  · exact decode_encoded_fields d hencodable
  · intro suffix d' later hsuffix
    rw [decode_encode_literal_append d hencodable, hsuffix]
    rfl

end Decoder

end

/-- Two fields, followed by an indexed one, at a decoder that does not know its table. -/
theorem decode_encode_literal_two :
    let _ := noHuffman.toHuffmanDecoding
    let fields := [Field.new (asciiBytes "a") (asciiBytes "b"),
      ⟨asciiBytes "c", asciiBytes "d", true, true⟩]
    Decoder.newPartial.decode (encodeLiteral fields) =
        (.newPartial, .ok (fields.map Field.resolved)) ∧
      Decoder.newPartial.decode (encodeLiteral fields ++ [0x82]) = (.newPartial,
        .ok (fields.map Field.resolved ++
          [Field.new (asciiBytes ":method") (asciiBytes "GET")])) := by
  intro _ fields
  obtain ⟨halone, hsuffix⟩ := Decoder.decode_encode_literal .newPartial fields (by decide)
  exact ⟨halone, hsuffix [0x82] .newPartial _ (by decide +kernel)⟩

end H2Tap
