import H2Tap.Lib.Run
import H2Tap.Hpack.Copy

/-!
# The decoder against RFC 7541

`Standard.decode` is a decoder written after the RFC: integers of section 5.1 with at most five
continuation bytes, strings of section 5.2 and representations of section 6, each of which is parsed
first and then applied to the table with `Encoder.emit`. `decode_rep_standard` says that an
iteration of the decode loop does the same, `decode_loop_standard` that a whole block does, and
`decoder_is_standard` is the outcome for the blocks of a connection watched from its first byte.
-/

namespace H2Tap

open Lib

namespace Standard

/-! ## The reference decoder -/

/-- The continuation bytes of an integer (section 5.1), of which at most `left` may come: each adds
its low seven bits, and a set top bit says that another one follows. -/
def integerRest (value factor : Nat) : Nat → Bytes → Option (Nat × Bytes)
  | 0, _ => none
  | _ + 1, [] => none
  | left + 1, c :: rest =>
      if c.toNat < 128 then some (value + c.toNat * factor, rest)
      else integerRest (value + (c.toNat - 128) * factor) (factor * 128) left rest

/-- An integer with an `n`-bit prefix (section 5.1). -/
def integer (n : Nat) : Bytes → Option (Nat × Bytes)
  | [] => none
  | first :: rest =>
      let low := first.toNat % 2 ^ n
      if low < 2 ^ n - 1 then some (low, rest) else integerRest low 1 5 rest

variable [HuffmanDecoding]

/-- A string literal (section 5.2). The top bit says that it is Huffman coded. -/
def string (b : Bytes) : Option (StringLiteral × Bytes) := do
  let first ← b.head?
  let (length, rest) ← integer 7 b
  if rest.length < length then none
  else
    let raw := rest.take length
    let octets ← if first.toNat < 128 then some raw else huffmanDecode raw
    some (⟨octets, 128 ≤ first.toNat⟩, rest.drop length)

/-- The name of a literal: an index, or a string after the index 0. -/
def literalName (n : Nat) (b : Bytes) : Option (LiteralName × Bytes) := do
  let (index, rest) ← integer n b
  if index = 0 then
    let (name, rest) ← string rest
    some (.fresh name, rest)
  else some (.index index, rest)

/-- A literal (section 6.2). -/
def literal (indexing : Indexing) (b : Bytes) : Option (Rep × Bytes) := do
  let (name, rest) ← literalName indexing.pattern.2 b
  let (value, rest) ← string rest
  some (.literal indexing name value, rest)

/-- A representation (section 6), by the leading bits of its first byte. -/
def representation : Bytes → Option (Rep × Bytes)
  | [] => none
  | first :: rest =>
      if 128 ≤ first.toNat then
        (integer 7 (first :: rest)).map fun (index, rest) => (.indexed index, rest)
      else if 64 ≤ first.toNat then literal .incremental (first :: rest)
      else if 32 ≤ first.toNat then
        (integer 5 (first :: rest)).map fun (n, rest) => (.sizeUpdate n, rest)
      else if 16 ≤ first.toNat then literal .never (first :: rest)
      else literal .without (first :: rest)

/-- The field that a representation shows for a header: sensitive for a never-indexed literal. -/
def shown (rep : Rep) (header : Header) : Field :=
  match rep with
  | .literal .never _ _ => { header.field with sensitive := true }
  | _ => header.field

/-- One representation: the table after it, what it shows and the bytes left. -/
def step (e : Encoder) (b : Bytes) : Option (Encoder × Option Field × Bytes) := do
  let (rep, rest) ← representation b
  let (e', header) ← e.emit rep
  some (e', header.map (shown rep), rest)

/-! ## Integers and strings -/

omit [HuffmanDecoding] in
/-- The bits that the decoder looks at. -/
theorem byte_bits (c : UInt8) :
    (c &&& 0x7f).toNat = c.toNat % 128 ∧ (c &&& 0x80 = 0 ↔ c.toNat < 128) := by
  have hall : ∀ w < 256, (w.toUInt8 &&& 0x7f).toNat = w % 128 ∧
      (w.toUInt8 &&& 0x80 = 0 ↔ w < 128) := by decide +kernel
  have hc := hall c.toNat c.toNat_lt
  rwa [show c.toNat.toUInt8 = c from UInt8.ofNat_toNat] at hc

omit [HuffmanDecoding] in
/-- `read_int` after its prefix. The sum stays far below the limit of `checked_add`. -/
theorem read_int_rest_standard {value k : Nat} (hk : k ≤ 5) (hvalue : value ≤ 255 + 2 ^ (7 * k))
    (b : Bytes) :
    (readIntRest value (7 * k) b).toOption = integerRest value (2 ^ (7 * k)) (5 - k) b := by
  induction b generalizing value k with
  | nil =>
      cases hleft : 5 - k with
      | zero => rfl
      | succ left => rfl
  | cons c rest ih =>
      obtain ⟨hlow, htop⟩ := byte_bits c
      have hc := c.toNat_lt
      rcases Nat.lt_or_ge k 5 with hlt | hge
      · have hpow : 2 ^ (7 * k) ≤ 2 ^ 28 := Nat.pow_le_pow_right (by decide) (by omega)
        have hnext : 2 ^ (7 * (k + 1)) = 2 ^ (7 * k) * 128 := by
          rw [Nat.mul_succ, Nat.pow_add]
        have hleft : 5 - k = (5 - (k + 1)) + 1 := by omega
        have hshift : ¬ 7 * k > 28 := by omega
        have hgroup : (c.toNat % 128) * 2 ^ (7 * k) ≤ 127 * 2 ^ (7 * k) :=
          Nat.mul_le_mul_right _ (by omega)
        have hsmall : ¬ value + (c.toNat % 128) * 2 ^ (7 * k) > usizeMax := by
          simp only [usizeMax]
          omega
        rw [hleft, integerRest]
        simp only [readIntRest, hshift, if_false, hlow, Nat.shiftLeft_eq, hsmall, htop]
        by_cases hlast : c.toNat < 128
        · simp only [hlast, if_true, Nat.mod_eq_of_lt hlast]
          rfl
        · have hmod : c.toNat % 128 = c.toNat - 128 := by omega
          simp only [hlast, if_false, hmod] at hgroup ⊢
          rw [← hnext, ← ih (by omega) (by omega)]
          rfl
      · obtain rfl : k = 5 := by omega
        rfl

omit [HuffmanDecoding] in
theorem read_int_standard (n : Nat) (b : Bytes) : (readInt b n).toOption = integer n b := by
  cases b with
  | nil => rfl
  | cons first rest =>
      have hmask : (1 <<< n) - 1 = 2 ^ n - 1 := by rw [Nat.one_shiftLeft]
      have hlow : first.toNat &&& (2 ^ n - 1) = first.toNat % 2 ^ n :=
        Nat.and_two_pow_sub_one_eq_mod _ _
      have hbyte := first.toNat_lt
      have hmod := Nat.mod_le first.toNat (2 ^ n)
      simp only [readInt, integer, hmask, hlow]
      split
      · rfl
      · exact read_int_rest_standard (k := 0) (Nat.zero_le 5) (by omega) rest

theorem read_string_standard (b : Bytes) :
    (readString b).toOption = (string b).map fun s => (s.1.octets, s.2) := by
  cases b with
  | nil => rfl
  | cons first tail =>
      have hint := read_int_standard 7 (first :: tail)
      have htop := (byte_bits first).2
      simp only [readString, string, List.head?_cons, Option.bind_eq_bind, Option.bind_some,
        ← hint, htop]
      cases readInt (first :: tail) 7 with
      | error e => rfl
      | ok read =>
          obtain ⟨length, rest⟩ := read
          simp only [Except.toOption, Option.bind_some, gt_iff_lt]
          by_cases hshort : rest.length < length
          · simp only [hshort, if_true, Option.map_none]
          · simp only [hshort, if_false]
            by_cases hraw : first.toNat < 128
            · simp [hraw]
            · cases hhuff : huffmanDecode (rest.take length) <;> simp [hraw]

/-! ## Literals -/

variable {e : Encoder} {d : Decoder}

omit [HuffmanDecoding] in
/-- The decoder's table is the reference table. -/
theorem lookup_standard (h : d.Copies usizeMax e) (index : Nat) :
    d.lookup index = (e.entry index).map Header.field := by
  unfold Encoder.entry Decoder.lookup
  by_cases hzero : index = 0
  · simp only [hzero, if_true, Option.map_none]
  · by_cases hstatic : index ≤ staticTable.length
    · simp only [hzero, hstatic, if_false, if_true, staticField, Option.map_map]
      rfl
    · simp only [hzero, hstatic, if_false, h.table, List.getElem?_map]

omit [HuffmanDecoding] in
theorem resolve_standard (h : d.Copies usizeMax e) (index : Nat) :
    d.resolve index = (d, match e.entry index with
      | some header => .ok header.field
      | none => .error (.badIndex index)) := by
  rw [Decoder.resolve, lookup_standard h, h.isExact]
  cases e.entry index <;> rfl

theorem read_value_standard (d : Decoder) (name : Bytes) (b : Bytes) :
    (string b = none ∧ ∃ err, d.readValue name false b = (d, .error err)) ∨
      ∃ value rest, string b = some (value, rest) ∧
        d.readValue name false b = (d, .ok (Field.new name value.octets, rest)) := by
  have hstring := read_string_standard b
  unfold Decoder.readValue
  cases hread : readString b with
  | error err =>
      rw [hread] at hstring
      exact Or.inl ⟨Option.map_eq_none_iff.mp hstring.symm, err, rfl⟩
  | ok read =>
      rw [hread] at hstring
      obtain ⟨⟨value, rest⟩, hvalue, rfl⟩ := Option.map_eq_some_iff.mp hstring.symm
      exact Or.inr ⟨value, rest, hvalue, rfl⟩

/-- A literal is read as the reference reads it, or refused where the reference refuses it. The
decoder stays as it is. -/
theorem read_literal_standard (h : d.Copies usizeMax e) (indexing : Indexing) (b : Bytes) :
    ((∃ err, d.readLiteral b indexing.pattern.2 = (d, .error err)) ∧
        ∀ rep rest, literal indexing b = some (rep, rest) → e.emit rep = none) ∨
      ∃ name value rest n, literal indexing b = some (.literal indexing name value, rest) ∧
        e.literalName name = some n ∧
        d.readLiteral b indexing.pattern.2 = (d, .ok (Field.new n value.octets, rest)) := by
  have hint := read_int_standard indexing.pattern.2 b
  unfold Decoder.readLiteral literal literalName
  simp only [Option.bind_eq_bind]
  cases hread : readInt b indexing.pattern.2 with
  | error err =>
      rw [hread] at hint
      refine Or.inl ⟨⟨err, rfl⟩, fun rep rest hparse => ?_⟩
      rw [← hint] at hparse
      cases hparse
  | ok read =>
      obtain ⟨index, rest⟩ := read
      rw [hread] at hint
      simp only [← hint, Except.toOption, Option.bind_some]
      by_cases hzero : index = 0
      · have hstring := read_string_standard rest
        simp only [hzero, if_true]
        cases hname : readString rest with
        | error err =>
            rw [hname] at hstring
            have hnone := Option.map_eq_none_iff.mp hstring.symm
            refine Or.inl ⟨⟨err, rfl⟩, fun rep rest' hparse => ?_⟩
            rw [hnone] at hparse
            cases hparse
        | ok read =>
            rw [hname] at hstring
            obtain ⟨⟨name, rest'⟩, hsome, rfl⟩ := Option.map_eq_some_iff.mp hstring.symm
            simp only [hsome, Option.bind_some]
            rcases read_value_standard d name.octets rest' with
              ⟨hnone, err, hvalue⟩ | ⟨value, rest'', hvalue, hok⟩
            · refine Or.inl ⟨⟨err, hvalue⟩, fun rep rest'' hparse => ?_⟩
              rw [hnone] at hparse
              cases hparse
            · refine Or.inr ⟨.fresh name, value, rest'', name.octets, ?_, rfl, hok⟩
              rw [hvalue]
              rfl
      · simp only [hzero, if_false, resolve_standard h, Option.bind_some]
        cases hentry : e.entry index with
        | none =>
            refine Or.inl ⟨⟨.badIndex index, rfl⟩, fun rep rest' hparse => ?_⟩
            obtain ⟨value, -, hrep⟩ := Option.bind_eq_some_iff.mp hparse
            cases hrep
            cases indexing <;> simp [Encoder.emit, Encoder.literalName, hentry]
        | some header =>
            rcases read_value_standard d header.name rest with
              ⟨hnone, err, hvalue⟩ | ⟨value, rest', hvalue, hok⟩
            · refine Or.inl ⟨⟨err, hvalue⟩, fun rep rest'' hparse => ?_⟩
              rw [hnone] at hparse
              cases hparse
            · refine Or.inr ⟨.index index, value, rest', header.name, ?_, ?_, hok⟩
              · rw [hvalue]
                rfl
              · rw [Encoder.literalName, hentry]
                rfl

/-! ## Representations -/

omit [HuffmanDecoding] in
/-- The leading bits that tell the representations apart. -/
theorem leading_bits (c : UInt8) :
    (c &&& 0x80 ≠ 0 ↔ 128 ≤ c.toNat) ∧ (c.toNat < 128 → (c &&& 0xc0 = 0x40 ↔ 64 ≤ c.toNat)) ∧
      (c.toNat < 64 → (c &&& 0xe0 = 0x20 ↔ 32 ≤ c.toNat)) ∧
      (c.toNat < 32 → (c &&& 0xf0 = 0x10 ↔ 16 ≤ c.toNat)) := by
  have hall : ∀ w < 256, (w.toUInt8 &&& 0x80 ≠ 0 ↔ 128 ≤ w) ∧
      (w < 128 → (w.toUInt8 &&& 0xc0 = 0x40 ↔ 64 ≤ w)) ∧
      (w < 64 → (w.toUInt8 &&& 0xe0 = 0x20 ↔ 32 ≤ w)) ∧
      (w < 32 → (w.toUInt8 &&& 0xf0 = 0x10 ↔ 16 ≤ w)) := by decide +kernel
  have hc := hall c.toNat c.toNat_lt
  rwa [show c.toNat.toUInt8 = c from UInt8.ofNat_toNat] at hc

/-- A representation is read and applied as the reference does it. -/
inductive Agrees (d : Decoder) : Option (Encoder × Option Field × Bytes) →
    Decoder × Except HpackError (Option Field × Bytes) → Prop where
  | refused (err : HpackError) : Agrees d none (d, .error err)
  | applied {e' : Encoder} {d' : Decoder} (f : Option Field) (rest : Bytes) :
      d'.Copies usizeMax e' → Agrees d (some (e', f, rest)) (d', .ok (f, rest))

/-- A literal: refused by both, or read by both as the same header. -/
theorem step_literal (h : d.Copies usizeMax e) (indexing : Indexing) {b : Bytes}
    (hrep : representation b = literal indexing b) :
    (∃ err, d.readLiteral b indexing.pattern.2 = (d, .error err) ∧ step e b = none) ∨
      ∃ header rest, d.readLiteral b indexing.pattern.2 = (d, .ok (header.field, rest)) ∧
        step e b = some (if indexing = .incremental then e.insert header else e,
          some { header.field with sensitive := decide (indexing = .never) }, rest) := by
  unfold step
  rw [hrep]
  rcases read_literal_standard h indexing b with
    ⟨⟨err, hlit⟩, hnone⟩ | ⟨name, value, rest, n, hparse, hname, hlit⟩
  · refine Or.inl ⟨err, hlit, ?_⟩
    cases hparse : literal indexing b with
    | none => rfl
    | some parsed =>
        simp only [Option.bind_eq_bind, Option.bind_some, hnone _ _ hparse]
        rfl
  · refine Or.inr ⟨⟨n, value.octets⟩, rest, hlit, ?_⟩
    rw [hparse]
    cases indexing <;>
    · simp only [Option.bind_eq_bind, Option.bind_some, Encoder.emit, hname, Option.map_some]
      rfl

/-- An indexed field. -/
theorem agrees_indexed (h : d.Copies usizeMax e) {b : Bytes}
    (hrep : representation b = (integer 7 b).map fun (index, rest) => (.indexed index, rest)) :
    Agrees d (step e b) (match readInt b 7 with
      | .error err => (d, .error err)
      | .ok (index, rest) =>
          if index = 0 then (d, .error .zeroIndex)
          else
            match d.resolve index with
            | (d, .error err) => (d, .error err)
            | (d, .ok f) => (d, .ok (some f, rest))) := by
  unfold step
  rw [hrep, ← read_int_standard]
  cases readInt b 7 with
  | error err => exact .refused err
  | ok read =>
      obtain ⟨index, rest⟩ := read
      simp only [Except.toOption, Option.map_some, Option.bind_eq_bind, Option.bind_some,
        Encoder.emit, resolve_standard h]
      by_cases hzero : index = 0
      · have hnone : e.entry index = none := by simp [Encoder.entry, hzero]
        rw [hnone, if_pos hzero]
        exact .refused _
      · rw [if_neg hzero]
        cases e.entry index with
        | none => exact .refused _
        | some header => exact .applied _ rest h

/-- A dynamic table size update. -/
theorem agrees_size_update (h : d.Copies usizeMax e) {b : Bytes}
    (hrep : representation b = (integer 5 b).map fun (n, rest) => (.sizeUpdate n, rest)) :
    Agrees d (step e b) (match readInt b 5 with
      | .error err => (d, .error err)
      | .ok (n, rest) => (d.resize n, .ok (none, rest))) := by
  unfold step
  rw [hrep, ← read_int_standard]
  cases hread : readInt b 5 with
  | error err => exact .refused err
  | ok read =>
      obtain ⟨n, rest⟩ := read
      have hmax : n ≤ usizeMax := by
        have := (read_int_taken hread).1
        simp only [usizeMax]
        omega
      exact .applied none rest (h.resize hmax)

/-- One iteration of the decode loop. -/
theorem decode_rep_standard (h : d.Copies usizeMax e) (first : UInt8) (tail : Bytes) :
    Agrees d (step e (first :: tail)) (d.decodeRep first (first :: tail)) := by
  obtain ⟨h80, hc0, he0, hf0⟩ := leading_bits first
  unfold Decoder.decodeRep
  by_cases hindexed : 128 ≤ first.toNat
  · rw [if_pos (h80.mpr hindexed)]
    exact agrees_indexed h (by rw [representation, if_pos hindexed])
  rw [if_neg (mt h80.mp hindexed)]
  by_cases hincremental : 64 ≤ first.toNat
  · rw [if_pos ((hc0 (by omega)).mpr hincremental)]
    rcases step_literal h .incremental (b := first :: tail) (by
      rw [representation, if_neg hindexed, if_pos hincremental]) with
      ⟨err, hlit, hstep⟩ | ⟨header, rest, hlit, hstep⟩
    · rw [hstep, show d.readLiteral _ 6 = _ from hlit]
      exact .refused err
    · rw [hstep, show d.readLiteral _ 6 = _ from hlit]
      exact .applied _ rest (h.insert header)
  rw [if_neg (mt (hc0 (by omega)).mp hincremental)]
  by_cases hsize : 32 ≤ first.toNat
  · rw [if_pos ((he0 (by omega)).mpr hsize)]
    exact agrees_size_update h (by
      rw [representation, if_neg hindexed, if_neg hincremental, if_pos hsize])
  rw [if_neg (mt (he0 (by omega)).mp hsize)]
  by_cases hnever : 16 ≤ first.toNat
  · rw [if_pos ((hf0 (by omega)).mpr hnever)]
    rcases step_literal h .never (b := first :: tail) (by
      rw [representation, if_neg hindexed, if_neg hincremental, if_neg hsize, if_pos hnever]) with
      ⟨err, hlit, hstep⟩ | ⟨header, rest, hlit, hstep⟩
    · rw [hstep, show d.readLiteral _ 4 = _ from hlit]
      exact .refused err
    · rw [hstep, show d.readLiteral _ 4 = _ from hlit]
      exact .applied _ rest h
  rw [if_neg (mt (hf0 (by omega)).mp hnever)]
  rcases step_literal h .without (b := first :: tail) (by
    rw [representation, if_neg hindexed, if_neg hincremental, if_neg hsize, if_neg hnever]) with
    ⟨err, hlit, hstep⟩ | ⟨header, rest, hlit, hstep⟩
  · rw [hstep, show d.readLiteral _ 4 = _ from hlit]
    exact .refused err
  · rw [hstep, show d.readLiteral _ 4 = _ from hlit]
    exact .applied _ rest h

/-! ## Blocks -/

omit [HuffmanDecoding] in
theorem integer_length {n v : Nat} {b rest : Bytes} (h : integer n b = some (v, rest)) :
    rest.length < b.length := by
  rw [← read_int_standard] at h
  cases hread : readInt b n with
  | error err =>
      rw [hread] at h
      cases h
  | ok read =>
      rw [hread] at h
      cases h
      exact read_int_length hread

theorem string_length {b rest : Bytes} {s : StringLiteral} (h : string b = some (s, rest)) :
    rest.length < b.length := by
  have hread := read_string_standard b
  rw [h] at hread
  cases hstring : readString b with
  | error err =>
      rw [hstring] at hread
      cases hread
  | ok read =>
      rw [hstring] at hread
      cases hread
      exact read_string_length hstring

theorem literal_length {indexing : Indexing} {b rest : Bytes} {rep : Rep}
    (h : literal indexing b = some (rep, rest)) : rest.length < b.length := by
  simp only [literal, literalName, Option.bind_eq_bind, Option.bind_eq_some_iff, Prod.exists,
    Option.some.injEq, Prod.mk.injEq] at h
  obtain ⟨name, afterName, ⟨index, afterIndex, hindex, hname⟩, value, rest', hvalue, -, rfl⟩ := h
  have hindexLength := integer_length hindex
  have hvalueLength := string_length hvalue
  split at hname
  · simp only [Option.bind_eq_some_iff, Prod.exists, Option.some.injEq, Prod.mk.injEq] at hname
    obtain ⟨s, afterString, hstring, -, rfl⟩ := hname
    have hnameLength := string_length hstring
    omega
  · cases hname
    omega

/-- A representation takes at least one byte. -/
theorem step_length {e' : Encoder} {f : Option Field} {b rest : Bytes}
    (hstep : step e b = some (e', f, rest)) : rest.length < b.length := by
  simp only [step, Option.bind_eq_bind, Option.bind_eq_some_iff, Prod.exists, Option.some.injEq,
    Prod.mk.injEq] at hstep
  obtain ⟨rep, rest', hrep, -, -, -, -, -, rfl⟩ := hstep
  have hinteger : ∀ n (wrap : Nat → Rep),
      ((integer n b).map fun (v, rest) => (wrap v, rest)) = some (rep, rest') →
      rest'.length < b.length := by
    intro n wrap hmap
    obtain ⟨⟨v, rest⟩, hv, heq⟩ := Option.map_eq_some_iff.mp hmap
    cases heq
    exact integer_length hv
  cases b with
  | nil => cases hrep
  | cons first tail =>
      rw [representation] at hrep
      split at hrep
      · exact hinteger 7 _ hrep
      · split at hrep
        · exact literal_length hrep
        · split at hrep
          · exact hinteger 5 _ hrep
          · split at hrep <;> exact literal_length hrep

/-- The rest of a block, with the fields shown so far. -/
def decodeLoop (e : Encoder) (b : Bytes) (out : List Field) : Encoder × Option (List Field) :=
  match b with
  | [] => (e, some out)
  | first :: tail =>
      match _h : step e (first :: tail) with
      | none => (e, none)
      | some (e', f, rest) => decodeLoop e' rest (out ++ f.toList)
termination_by b.length
decreasing_by exact step_length _h

/-- A header block: the table after it, and the fields unless the block is refused. -/
def decode (e : Encoder) (block : Bytes) : Encoder × Option (List Field) := decodeLoop e block []

theorem decode_loop_refused {first : UInt8} {tail : Bytes} (hstep : step e (first :: tail) = none)
    (out : List Field) : decodeLoop e (first :: tail) out = (e, none) := by
  rw [decodeLoop]
  split
  · rfl
  · next hsome =>
      rw [hstep] at hsome
      cases hsome

theorem decode_loop_applied {e' : Encoder} {f : Option Field} {first : UInt8} {tail rest : Bytes}
    (hstep : step e (first :: tail) = some (e', f, rest)) (out : List Field) :
    decodeLoop e (first :: tail) out = decodeLoop e' rest (out ++ f.toList) := by
  rw [decodeLoop]
  split
  · next hnone =>
      rw [hstep] at hnone
      cases hnone
  · next hsome =>
      rw [hstep] at hsome
      cases hsome
      rfl

/-- A block is decoded as the reference decodes it. -/
theorem decode_loop_standard (h : d.Copies usizeMax e) (b : Bytes) (out : List Field) :
    (d.decodeLoop b out).1.Copies usizeMax (decodeLoop e b out).1 ∧
      (d.decodeLoop b out).2.toOption = (decodeLoop e b out).2 := by
  induction d, b, out using Decoder.decodeLoop.induct generalizing e with
  | case1 d out =>
      rw [Decoder.decode_loop_nil, decodeLoop]
      exact ⟨h, rfl⟩
  | case2 d out first tail d' err hrep =>
      have hagrees := decode_rep_standard h first tail
      rw [hrep] at hagrees
      rw [Decoder.decode_loop_of_error hrep]
      cases hstep : step e (first :: tail) with
      | none =>
          rw [hstep] at hagrees
          cases hagrees
          rw [decode_loop_refused hstep]
          exact ⟨h, rfl⟩
      | some applied =>
          rw [hstep] at hagrees
          cases hagrees
  | case3 d out first tail d' f rest hrep ih =>
      have hagrees := decode_rep_standard h first tail
      rw [hrep] at hagrees
      rw [Decoder.decode_loop_of_ok hrep]
      cases hstep : step e (first :: tail) with
      | none =>
          rw [hstep] at hagrees
          cases hagrees
      | some applied =>
          rw [hstep] at hagrees
          cases hagrees with
          | applied f rest hcopies =>
              rw [decode_loop_applied hstep]
              exact ih hcopies

/-- The blocks of a connection. -/
theorem run_standard (h : d.Copies usizeMax e) (blocks : List Bytes) :
    (run Decoder.decode d blocks).1.Copies usizeMax (run decode e blocks).1 ∧
      (run Decoder.decode d blocks).2.map Except.toOption = (run decode e blocks).2 := by
  induction blocks generalizing d e with
  | nil => exact ⟨h, rfl⟩
  | cons block blocks ih =>
      obtain ⟨hcopies, hresult⟩ := decode_loop_standard h block []
      obtain ⟨hfinal, hresults⟩ := ih hcopies
      refine ⟨hfinal, ?_⟩
      rw [run, run, List.map_cons]
      exact congrArg₂ List.cons hresult hresults

end Standard

/-- From the first byte on, the decoder is the reference decoder: for every sequence of blocks it
refuses the same ones, shows the same fields of the others and ends with the same table and
capacity. -/
theorem decoder_is_standard [HuffmanDecoding] (blocks : List Bytes) :
    let result := run Decoder.decode .newExact blocks
    let reference := run Standard.decode .initial blocks
    result.2.map Except.toOption = reference.2 ∧
      result.1.table = reference.1.table.map Header.field ∧
      result.1.maxSize = reference.1.capacity := by
  have hinitial : Decoder.newExact.Copies usizeMax Encoder.initial :=
    Decoder.copies_initial (by decide)
  obtain ⟨hcopies, hresults⟩ := Standard.run_standard hinitial blocks
  exact ⟨hresults, hcopies.table, hcopies.capacity⟩

end H2Tap
