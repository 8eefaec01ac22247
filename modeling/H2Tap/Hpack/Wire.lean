import H2Tap.Hpack.DecodeLoop
import H2Tap.Hpack.Encoder

/-!
# Decoding what an encoder wrote

`applyRep` is the decoder's reading of one representation, without its bytes. `decode_rep_wire` says
that an iteration of the decode loop on an encoder's bytes either does exactly that and leaves the
bytes after them, or fails without touching the table; the second happens only when an integer is
above what `read_int` accepts. `decode_wire_rule` lifts it to header blocks.
-/

namespace H2Tap

/-! ## Dispatch on the first byte -/

theorem indexed_pattern {low : Nat} (h : low < 2 ^ 7) :
    (0x80 ||| low.toUInt8) &&& 0x80 ≠ 0 := by
  have hall : ∀ w : Nat, w < 2 ^ 7 → (0x80 ||| w.toUInt8) &&& 0x80 ≠ 0 := by decide +kernel
  exact hall low h

theorem incremental_pattern {low : Nat} (h : low < 2 ^ 6) :
    (0x40 ||| low.toUInt8) &&& 0x80 = 0 ∧ (0x40 ||| low.toUInt8) &&& 0xc0 = 0x40 := by
  have hall : ∀ w : Nat, w < 2 ^ 6 → (0x40 ||| w.toUInt8) &&& 0x80 = 0 ∧
      (0x40 ||| w.toUInt8) &&& 0xc0 = 0x40 := by decide +kernel
  exact hall low h

theorem size_update_pattern {low : Nat} (h : low < 2 ^ 5) :
    (0x20 ||| low.toUInt8) &&& 0x80 = 0 ∧ (0x20 ||| low.toUInt8) &&& 0xc0 ≠ 0x40 ∧
      (0x20 ||| low.toUInt8) &&& 0xe0 = 0x20 := by
  have hall : ∀ w : Nat, w < 2 ^ 5 → (0x20 ||| w.toUInt8) &&& 0x80 = 0 ∧
      (0x20 ||| w.toUInt8) &&& 0xc0 ≠ 0x40 ∧ (0x20 ||| w.toUInt8) &&& 0xe0 = 0x20 := by
    decide +kernel
  exact hall low h

theorem never_pattern {low : Nat} (h : low < 2 ^ 4) :
    (0x10 ||| low.toUInt8) &&& 0x80 = 0 ∧ (0x10 ||| low.toUInt8) &&& 0xc0 ≠ 0x40 ∧
      (0x10 ||| low.toUInt8) &&& 0xe0 ≠ 0x20 ∧ (0x10 ||| low.toUInt8) &&& 0xf0 = 0x10 := by
  have hall : ∀ w : Nat, w < 2 ^ 4 → (0x10 ||| w.toUInt8) &&& 0x80 = 0 ∧
      (0x10 ||| w.toUInt8) &&& 0xc0 ≠ 0x40 ∧ (0x10 ||| w.toUInt8) &&& 0xe0 ≠ 0x20 ∧
      (0x10 ||| w.toUInt8) &&& 0xf0 = 0x10 := by decide +kernel
  exact hall low h

theorem without_pattern {low : Nat} (h : low < 2 ^ 4) :
    (0x00 ||| low.toUInt8) &&& 0x80 = 0 ∧ (0x00 ||| low.toUInt8) &&& 0xc0 ≠ 0x40 ∧
      (0x00 ||| low.toUInt8) &&& 0xe0 ≠ 0x20 ∧ (0x00 ||| low.toUInt8) &&& 0xf0 ≠ 0x10 := by
  have hall : ∀ w : Nat, w < 2 ^ 4 → (0x00 ||| w.toUInt8) &&& 0x80 = 0 ∧
      (0x00 ||| w.toUInt8) &&& 0xc0 ≠ 0x40 ∧ (0x00 ||| w.toUInt8) &&& 0xe0 ≠ 0x20 ∧
      (0x00 ||| w.toUInt8) &&& 0xf0 ≠ 0x10 := by decide +kernel
  exact hall low h

/-! ## Integers and strings -/

/-- An encoder's integer is read back or refused as an overflow. -/
theorem read_int_write_int_or {n : Nat} (flags : UInt8) (v : Nat) (rest : Bytes) (hn : n ≤ 8)
    (hflags : flags.toNat % 2 ^ n = 0) :
    readInt (writeInt v n flags ++ rest) n = .ok (v, rest) ∨
      (2 ^ 35 + 2 ^ n - 1 ≤ v ∧ readInt (writeInt v n flags ++ rest) n = .error .intOverflow) := by
  by_cases h : v < 2 ^ 35 + 2 ^ n - 1
  · exact Or.inl (read_int_write_int rest hn hflags h)
  · exact Or.inr ⟨by omega, read_int_write_int_of_large rest hn hflags (by omega)⟩

variable [HuffmanCoding]

/-- An encoder's string is read back or its length refused as an overflow. -/
theorem read_string_wire (s : StringLiteral) (rest : Bytes) :
    readString (s.wire ++ rest) = .ok (s.octets, rest) ∨
      (2 ^ 35 + 2 ^ 7 - 1 ≤ s.payload.length ∧
        readString (s.wire ++ rest) = .error .intOverflow) := by
  obtain ⟨low, tail, hhead, hlow⟩ :=
    write_int_head s.payload.length 7 (if s.huffman then 0x80 else 0x00)
  have hflags : (if s.huffman then 0x80 else 0x00 : UInt8).toNat % 2 ^ 7 = 0 := by
    cases s.huffman <;> rfl
  have hfirst : (s.wire ++ rest).head? =
      some ((if s.huffman then 0x80 else 0x00) ||| low.toUInt8) := by
    simp [StringLiteral.wire, hhead]
  have happ : s.wire ++ rest =
      writeInt s.payload.length 7 (if s.huffman then 0x80 else 0x00) ++ (s.payload ++ rest) := by
    simp [StringLiteral.wire]
  unfold readString
  rw [hfirst, happ]
  rcases read_int_write_int_or _ s.payload.length (s.payload ++ rest) (n := 7) (by decide) hflags
    with hint | ⟨hlarge, hint⟩
  · left
    have hlen : ¬ s.payload.length > (s.payload ++ rest).length := by
      simp
    simp only [hint, hlen, if_false, List.take_left', List.drop_left']
    cases hhuff : s.huffman with
    | true =>
        have hbit := indexed_pattern hlow
        simp only [if_true, hbit, if_false]
        simp [StringLiteral.payload, hhuff, huffman_decode_encode]
    | false =>
        have hbit : (0x00 ||| low.toUInt8) &&& 0x80 = 0 := by
          have hall : ∀ w : Nat, w < 2 ^ 7 → (0x00 ||| w.toUInt8) &&& 0x80 = 0 := by decide +kernel
          exact hall low hlow
        simp only [Bool.false_eq_true, if_false, hbit, if_true]
        simp [StringLiteral.payload, hhuff]
  · exact Or.inr ⟨hlarge, by simp only [hint]⟩

/-! ## One representation -/

/-- Every integer of the representation is in the range `read_int` accepts. -/
def Rep.InRange : Rep → Prop
  | .indexed index => index < 2 ^ 35 + 2 ^ 7 - 1
  | .literal indexing (.index index) value =>
      index < 2 ^ 35 + 2 ^ indexing.pattern.2 - 1 ∧ value.payload.length < 2 ^ 35 + 2 ^ 7 - 1
  | .literal _ (.fresh name) value =>
      name.payload.length < 2 ^ 35 + 2 ^ 7 - 1 ∧ value.payload.length < 2 ^ 35 + 2 ^ 7 - 1
  | .sizeUpdate n => n < 2 ^ 35 + 2 ^ 5 - 1

namespace Decoder

/-- What a literal does once its name is known. -/
def applyLiteral (d : Decoder) (indexing : Indexing) (name : Bytes) (unknown : Bool)
    (value : Bytes) : Decoder × Option Field :=
  match indexing with
  | .incremental =>
      (d.insert ⟨name, value, false, unknown⟩, some ⟨name, value, false, unknown⟩)
  | .without => (d, some ⟨name, value, false, unknown⟩)
  | .never => (d, some ⟨name, value, true, unknown⟩)

/-- The decoder's reading of one representation. -/
def applyRep (d : Decoder) : Rep → Decoder × Except HpackError (Option Field)
  | .indexed index =>
      if index = 0 then (d, .error .zeroIndex)
      else
        match d.resolve index with
        | (d, .error e) => (d, .error e)
        | (d, .ok f) => (d, .ok (some f))
  | .literal indexing (.index index) value =>
      match d.resolve index with
      | (d, .error e) => (d, .error e)
      | (d, .ok f) =>
          ((d.applyLiteral indexing f.name f.unknown value.octets).1,
            .ok (d.applyLiteral indexing f.name f.unknown value.octets).2)
  | .literal indexing (.fresh name) value =>
      ((d.applyLiteral indexing name.octets false value.octets).1,
        .ok (d.applyLiteral indexing name.octets false value.octets).2)
  | .sizeUpdate n => (d.resize n, .ok none)

/-- A literal whose bytes follow is read with a known name, or its value is refused. -/
theorem read_value_wire (d : Decoder) (name : Bytes) (unknown : Bool) (value : StringLiteral)
    (rest : Bytes) :
    d.readValue name unknown (value.wire ++ rest) =
        (d, .ok (⟨name, value.octets, false, unknown⟩, rest)) ∨
      (2 ^ 35 + 2 ^ 7 - 1 ≤ value.payload.length ∧
        d.readValue name unknown (value.wire ++ rest) = (d, .error .intOverflow)) := by
  rcases read_string_wire value rest with h | ⟨hlarge, h⟩
  · exact Or.inl (by simp only [readValue, h])
  · exact Or.inr ⟨hlarge, by simp only [readValue, h]⟩

/-- `read_literal` on a literal's bytes: what its name resolves to, with the value, or an integer
is refused. -/
theorem read_literal_wire (d : Decoder) (indexing : Indexing) (name : LiteralName)
    (value : StringLiteral) (rest : Bytes)
    (hname : (Rep.literal indexing name value).NamesEntry) :
    (∃ d' e, d.readLiteral ((Rep.literal indexing name value).wire ++ rest)
        indexing.pattern.2 = (d', .error e) ∧ (d' = d ∨ d' = d.countUnresolved) ∧
        ((Rep.literal indexing name value).InRange →
          d.applyRep (.literal indexing name value) = (d', .error e))) ∨
    (∃ d' n unknown, d.readLiteral ((Rep.literal indexing name value).wire ++ rest)
        indexing.pattern.2 = (d', .ok (⟨n, value.octets, false, unknown⟩, rest)) ∧
        d.applyRep (.literal indexing name value) =
          ((d'.applyLiteral indexing n unknown value.octets).1,
            .ok (d'.applyLiteral indexing n unknown value.octets).2)) := by
  have hwidth : indexing.pattern.2 ≤ 8 := by cases indexing <;> decide
  have hflags : indexing.pattern.1.toNat % 2 ^ indexing.pattern.2 = 0 := by
    cases indexing <;> decide
  cases name with
  | index index =>
      have hindex : index ≠ 0 := hname
      simp only [Rep.wire, List.append_assoc, Rep.InRange]
      rcases read_int_write_int_or _ index (value.wire ++ rest) hwidth hflags with
        hint | ⟨hlarge, hint⟩
      · rcases hres : d.resolve index with ⟨d', r⟩
        cases r with
        | error e =>
            refine Or.inl ⟨d', e, ?_, resolve_frame hres, fun _ => ?_⟩
            · simp only [readLiteral, hint, hindex, if_false, hres]
            · simp only [applyRep, hres]
        | ok f =>
            rcases read_value_wire d' f.name f.unknown value rest with hval | ⟨hlong, hval⟩
            · refine Or.inr ⟨d', f.name, f.unknown, ?_, ?_⟩
              · simp only [readLiteral, hint, hindex, if_false, hres, hval]
              · simp only [applyRep, hres]
            · refine Or.inl ⟨d', .intOverflow, ?_, resolve_frame hres, fun hrange => ?_⟩
              · simp only [readLiteral, hint, hindex, if_false, hres, hval]
              · omega
      · refine Or.inl ⟨d, .intOverflow, ?_, Or.inl rfl, fun hrange => ?_⟩
        · simp only [readLiteral, hint]
        · omega
  | fresh name =>
      simp only [Rep.wire, List.append_assoc, Rep.InRange]
      have hint : readInt (writeInt 0 indexing.pattern.2 indexing.pattern.1 ++
          (name.wire ++ (value.wire ++ rest))) indexing.pattern.2 =
          .ok (0, name.wire ++ (value.wire ++ rest)) :=
        read_int_write_int _ hwidth hflags (by omega)
      rcases read_string_wire name (value.wire ++ rest) with hstr | ⟨hlong, hstr⟩
      · rcases read_value_wire d name.octets false value rest with hval | ⟨hlong, hval⟩
        · refine Or.inr ⟨d, name.octets, false, ?_, rfl⟩
          simp only [readLiteral, hint, if_true, hstr, hval]
        · refine Or.inl ⟨d, .intOverflow, ?_, Or.inl rfl, fun hrange => by omega⟩
          simp only [readLiteral, hint, if_true, hstr, hval]
      · refine Or.inl ⟨d, .intOverflow, ?_, Or.inl rfl, fun hrange => by omega⟩
        simp only [readLiteral, hint, if_true, hstr]

/-- A literal's first byte leads to `read_literal`, whose failure ends the iteration. -/
theorem decode_rep_literal_error {d d' : Decoder} {indexing : Indexing} {low : Nat} {b : Bytes}
    {e : HpackError} (hlow : low < 2 ^ indexing.pattern.2)
    (hlit : d.readLiteral b indexing.pattern.2 = (d', .error e)) :
    d.decodeRep (indexing.pattern.1 ||| low.toUInt8) b = (d', .error e) := by
  cases indexing with
  | incremental =>
      obtain ⟨h80, hc0⟩ := incremental_pattern hlow
      simp only [Indexing.pattern] at hlit ⊢
      simp only [decodeRep, h80, hc0, ne_eq, not_true_eq_false, if_false, if_true, hlit]
  | without =>
      obtain ⟨h80, hc0, he0, hf0⟩ := without_pattern hlow
      simp only [Indexing.pattern] at hlit ⊢
      simp only [decodeRep, h80, hc0, he0, hf0, ne_eq, not_true_eq_false, if_false, hlit]
  | never =>
      obtain ⟨h80, hc0, he0, hf0⟩ := never_pattern hlow
      simp only [Indexing.pattern] at hlit ⊢
      simp only [decodeRep, h80, hc0, he0, hf0, ne_eq, not_true_eq_false, if_false, if_true, hlit]

/-- A literal's first byte leads to `read_literal` and then to what its kind asks for. -/
theorem decode_rep_literal_ok {d d' : Decoder} {indexing : Indexing} {low : Nat} {b rest : Bytes}
    {name value : Bytes} {unknown : Bool} (hlow : low < 2 ^ indexing.pattern.2)
    (hlit : d.readLiteral b indexing.pattern.2 = (d', .ok (⟨name, value, false, unknown⟩, rest))) :
    d.decodeRep (indexing.pattern.1 ||| low.toUInt8) b =
      ((d'.applyLiteral indexing name unknown value).1,
        .ok ((d'.applyLiteral indexing name unknown value).2, rest)) := by
  cases indexing with
  | incremental =>
      obtain ⟨h80, hc0⟩ := incremental_pattern hlow
      simp only [Indexing.pattern] at hlit ⊢
      simp only [decodeRep, h80, hc0, ne_eq, not_true_eq_false, if_false, if_true, hlit,
        applyLiteral]
  | without =>
      obtain ⟨h80, hc0, he0, hf0⟩ := without_pattern hlow
      simp only [Indexing.pattern] at hlit ⊢
      simp only [decodeRep, h80, hc0, he0, hf0, ne_eq, not_true_eq_false, if_false, hlit,
        applyLiteral]
  | never =>
      obtain ⟨h80, hc0, he0, hf0⟩ := never_pattern hlow
      simp only [Indexing.pattern] at hlit ⊢
      simp only [decodeRep, h80, hc0, he0, hf0, ne_eq, not_true_eq_false, if_false, if_true, hlit,
        applyLiteral]

/-- A literal's bytes start with its flags. -/
theorem literal_wire_head (indexing : Indexing) (name : LiteralName) (value : StringLiteral) :
    ∃ low tail, (Rep.literal indexing name value).wire =
      (indexing.pattern.1 ||| low.toUInt8) :: tail ∧ low < 2 ^ indexing.pattern.2 := by
  cases name with
  | index index =>
      obtain ⟨low, tail, hhead, hlow⟩ :=
        write_int_head index indexing.pattern.2 indexing.pattern.1
      exact ⟨low, tail ++ value.wire, by simp [Rep.wire, hhead], hlow⟩
  | fresh name =>
      obtain ⟨low, tail, hhead, hlow⟩ := write_int_head 0 indexing.pattern.2 indexing.pattern.1
      exact ⟨low, tail ++ (name.wire ++ value.wire), by simp [Rep.wire, hhead], hlow⟩

/-- An iteration of the decode loop on a representation's bytes does what `applyRep` does and leaves
the bytes after them, or fails without touching the table. In range it is `applyRep` that fails. -/
theorem decode_rep_wire (d : Decoder) (r : Rep) (rest : Bytes) (hname : r.NamesEntry) :
    ∃ first tail, r.wire ++ rest = first :: tail ∧
      ((∃ d' e, d.decodeRep first (first :: tail) = (d', .error e) ∧
          (d' = d ∨ d' = d.countUnresolved) ∧ (r.InRange → d.applyRep r = (d', .error e))) ∨
        (∃ d' f, d.decodeRep first (first :: tail) = (d', .ok (f, rest)) ∧
          d.applyRep r = (d', .ok f))) := by
  cases r with
  | indexed index =>
      obtain ⟨low, tail, hhead, hlow⟩ := write_int_head index 7 0x80
      refine ⟨0x80 ||| low.toUInt8, tail ++ rest, by simp [Rep.wire, hhead], ?_⟩
      have hbytes : (0x80 ||| low.toUInt8) :: (tail ++ rest) = writeInt index 7 0x80 ++ rest := by
        rw [hhead, List.cons_append]
      rw [hbytes]
      simp only [decodeRep, indexed_pattern hlow, ne_eq, not_false_eq_true, if_true, applyRep]
      rcases read_int_write_int_or 0x80 index rest (n := 7) (by decide) (by decide)
        with hint | ⟨hlarge, hint⟩
      · simp only [hint]
        by_cases hindex : index = 0
        · exact Or.inl ⟨d, .zeroIndex, by simp [hindex], Or.inl rfl, by simp [hindex]⟩
        · simp only [hindex, if_false]
          rcases hres : d.resolve index with ⟨d', r⟩
          cases r with
          | error e => exact Or.inl ⟨d', e, rfl, resolve_frame hres, fun _ => rfl⟩
          | ok f => exact Or.inr ⟨d', some f, rfl, rfl⟩
      · refine Or.inl ⟨d, .intOverflow, by simp only [hint], Or.inl rfl, fun hrange => ?_⟩
        simp only [Rep.InRange] at hrange
        omega
  | literal indexing name value =>
      obtain ⟨low, tail, hhead, hlow⟩ := literal_wire_head indexing name value
      refine ⟨indexing.pattern.1 ||| low.toUInt8, tail ++ rest, by simp [hhead], ?_⟩
      have hbytes : (indexing.pattern.1 ||| low.toUInt8) :: (tail ++ rest) =
          (Rep.literal indexing name value).wire ++ rest := by
        rw [hhead, List.cons_append]
      rw [hbytes]
      rcases read_literal_wire d indexing name value rest hname with
        ⟨d', e, hlit, hframe, happly⟩ | ⟨d', n, unknown, hlit, happly⟩
      · exact Or.inl ⟨d', e, decode_rep_literal_error hlow hlit, hframe, happly⟩
      · exact Or.inr ⟨_, _, decode_rep_literal_ok hlow hlit, happly⟩
  | sizeUpdate n =>
      obtain ⟨low, tail, hhead, hlow⟩ := write_int_head n 5 0x20
      refine ⟨0x20 ||| low.toUInt8, tail ++ rest, by simp [Rep.wire, hhead], ?_⟩
      have hbytes : (0x20 ||| low.toUInt8) :: (tail ++ rest) = writeInt n 5 0x20 ++ rest := by
        rw [hhead, List.cons_append]
      obtain ⟨h80, hc0, he0⟩ := size_update_pattern hlow
      rw [hbytes]
      simp only [decodeRep, h80, hc0, he0, ne_eq, not_true_eq_false, if_false, if_true, applyRep]
      rcases read_int_write_int_or 0x20 n rest (n := 5) (by decide) (by decide)
        with hint | ⟨hlarge, hint⟩
      · exact Or.inr ⟨d.resize n, none, by simp only [hint], rfl⟩
      · refine Or.inl ⟨d, .intOverflow, by simp only [hint], Or.inl rfl, fun hrange => ?_⟩
        simp only [Rep.InRange] at hrange
        omega

omit [HuffmanCoding] in
theorem apply_literal_frame (d : Decoder) (indexing : Indexing) (name value : Bytes)
    (unknown : Bool) :
    let d' := (d.applyLiteral indexing name unknown value).1
    d'.maxSize = d.maxSize ∧ d'.capacityObserved = d.capacityObserved := by
  cases indexing <;> simp [applyLiteral]

omit [HuffmanCoding] in
/-- A field representation leaves the capacity and what is known of it alone. -/
theorem apply_rep_frame {d d' : Decoder} {r : Rep} {f : Option Field} (hfield : r.isField = true)
    (h : d.applyRep r = (d', .ok f)) :
    d'.maxSize = d.maxSize ∧ d'.capacityObserved = d.capacityObserved := by
  have hresolved : ∀ {d₁ : Decoder} {index : Nat} {res : Except HpackError Field},
      d.resolve index = (d₁, res) →
        d₁.maxSize = d.maxSize ∧ d₁.capacityObserved = d.capacityObserved := by
    intro d₁ index res hres
    rcases resolve_frame hres with rfl | rfl <;> exact ⟨rfl, rfl⟩
  cases r with
  | indexed index =>
      simp only [applyRep] at h
      split at h
      · cases h
      · split at h
        · cases h
        · next hres =>
            cases h
            exact hresolved hres
  | literal indexing name value =>
      cases name with
      | index index =>
          simp only [applyRep] at h
          split at h
          · cases h
          · next d₁ entry hres =>
              cases h
              obtain ⟨hmax, hobs⟩ := apply_literal_frame d₁ indexing entry.name value.octets
                entry.unknown
              exact ⟨hmax.trans (hresolved hres).1, hobs.trans (hresolved hres).2⟩
      | fresh name =>
          cases h
          exact apply_literal_frame d indexing name.octets value.octets false
  | sizeUpdate n => cases hfield

/-! ## Header blocks -/

/-- A property of the decoder, the representations still to come and the fields pushed so far that
`applyRep` keeps holds when an encoder's block has been decoded; `E` is what a failure leaves. On a
representation in range it is `applyRep` that fails. -/
theorem decode_wire_rule {I : Decoder → List Rep → List Field → Prop} {E : Decoder → Prop}
    (hfail : ∀ d r rs out d' e, I d (r :: rs) out → d' = d ∨ d' = d.countUnresolved →
      (r.InRange → d.applyRep r = (d', .error e)) → E d')
    (hstep : ∀ d r rs out d' f, I d (r :: rs) out → d.applyRep r = (d', .ok f) →
      I d' rs (out ++ f.toList))
    {d d' : Decoder} {rs : List Rep} {out : List Field} {res : Except HpackError (List Field)}
    (hnames : ∀ r ∈ rs, r.NamesEntry) (hinit : I d rs out)
    (h : d.decodeLoop (blockWire rs) out = (d', res)) :
    (∀ e, res = .error e → E d') ∧ (∀ fields, res = .ok fields → I d' [] fields) := by
  induction rs generalizing d out with
  | nil =>
      rw [blockWire, decode_loop_nil] at h
      cases h
      exact ⟨fun e he => (by cases he), fun fields hf => (by cases hf; exact hinit)⟩
  | cons r rs ih =>
      obtain ⟨first, tail, hbytes, hrep⟩ :=
        decode_rep_wire d r (blockWire rs) (hnames r List.mem_cons_self)
      rw [blockWire, hbytes] at h
      rcases hrep with ⟨d₁, e, hrep, hframe, happly⟩ | ⟨d₁, f, hrep, happly⟩
      · rw [decode_loop_of_error hrep] at h
        cases h
        exact ⟨fun _ _ => hfail d r rs out _ e hinit hframe happly, fun fields hf => by cases hf⟩
      · rw [decode_loop_of_ok hrep] at h
        exact ih (fun r hr => hnames r (List.mem_cons_of_mem _ hr))
          (hstep d r rs out d₁ f hinit happly) h

end Decoder

end H2Tap
