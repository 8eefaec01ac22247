import H2Tap.Hpack.Decoder

/-!
# What a snapshot holds

`snapshot.rs`, with the part of `dir_snapshot` of `tracker.rs` that records the dynamic table. Every
byte string survives the way into a snapshot and back (`to_bytes_from_bytes`), so a table comes back
with the names and values it went in with (`restored_fields_eq`). The flags of a field are not
recorded.
-/

namespace H2Tap

/-- A header name or value: text, or the hex digits of bytes that are not valid UTF-8. -/
inductive Str where
  | text (s : String)
  | hex (hex : String)
  deriving DecidableEq, Repr

/-- The bytes of a string in UTF-8: `as_bytes`. -/
def utf8Bytes (s : String) : Bytes := s.toUTF8.data.toList

/-- `format!("{x:02x}")`. -/
def hexDigits (x : UInt8) : List Char :=
  [Nat.digitChar (x.toNat / 16), Nat.digitChar (x.toNat % 16)]

/-- `char::to_digit` in base 16, on a byte. -/
def hexDigitValue (b : UInt8) : Option Nat :=
  if 48 ≤ b ∧ b ≤ 57 then some (b.toNat - 48)
  else if 97 ≤ b ∧ b ≤ 102 then some (b.toNat - 97 + 10)
  else if 65 ≤ b ∧ b ≤ 70 then some (b.toNat - 65 + 10)
  else none

/-- The loop of `u8::from_str_radix` in base 16, with the value read so far. -/
def radixLoop (value : Nat) : Bytes → Option UInt8
  | [] => some value.toUInt8
  | b :: rest =>
      match hexDigitValue b with
      | none => none
      | some digit => if value * 16 + digit < 256 then radixLoop (value * 16 + digit) rest else none

/-- `u8::from_str_radix` in base 16: a plus sign may come before the first digit. -/
def fromStrRadix : Bytes → Option UInt8
  | [] => none
  | 43 :: b :: rest => radixLoop 0 (b :: rest)
  | digits => radixLoop 0 digits

/-- `chunks(2)`. -/
def chunksOfTwo : Bytes → List Bytes
  | a :: b :: rest => [a, b] :: chunksOfTwo rest
  | [a] => [[a]]
  | [] => []

namespace Str

/-- `Str::from_bytes`. -/
def fromBytes (b : Bytes) : Str :=
  match String.fromUTF8? b.toByteArray with
  | some s => .text s
  | none => .hex (String.ofList (b.flatMap hexDigits))

/-- `Str::to_bytes`. -/
def toBytes : Str → Bytes
  | .text s => utf8Bytes s
  | .hex digits => (chunksOfTwo (utf8Bytes digits)).filterMap fromStrRadix

end Str

/-! ## Byte strings survive -/

/-- A byte comes back from its two digits, which are two bytes of text. -/
theorem from_str_radix_hex_digits (x : UInt8) :
    ((hexDigits x).flatMap String.utf8EncodeChar).length = 2 ∧
      fromStrRadix ((hexDigits x).flatMap String.utf8EncodeChar) = some x := by
  have hall : ∀ n : Fin 256,
      ((hexDigits (UInt8.ofFin n)).flatMap String.utf8EncodeChar).length = 2 ∧
        fromStrRadix ((hexDigits (UInt8.ofFin n)).flatMap String.utf8EncodeChar) =
          some (UInt8.ofFin n) := by
    decide +kernel
  exact hall x.toFin

theorem to_bytes_hex (b : Bytes) :
    (chunksOfTwo ((b.flatMap hexDigits).flatMap String.utf8EncodeChar)).filterMap fromStrRadix =
      b := by
  induction b with
  | nil => rfl
  | cons x b ih =>
      obtain ⟨hlength, hradix⟩ := from_str_radix_hex_digits x
      obtain ⟨hi, lo, hdigits⟩ := List.length_eq_two.mp hlength
      rw [hdigits] at hradix
      rw [List.flatMap_cons, List.flatMap_append, hdigits]
      simp only [List.cons_append, List.nil_append, chunksOfTwo, List.filterMap_cons, hradix, ih]

/-- `Str` loses nothing of a byte string. -/
theorem to_bytes_from_bytes (b : Bytes) : (Str.fromBytes b).toBytes = b := by
  unfold Str.fromBytes String.fromUTF8?
  by_cases hvalid : b.toByteArray.IsValidUTF8
  · simp [hvalid, Str.toBytes, utf8Bytes, String.fromUTF8]
  · simp [hvalid, Str.toBytes, utf8Bytes, List.utf8Encode]
    exact to_bytes_hex b

/-! ## Entries -/

/-- `Entry`: a table entry, without its flags. -/
structure Entry where
  n : Str
  v : Str
  deriving DecidableEq, Repr

/-- The entry that `dir_snapshot` records of a field. -/
def Entry.ofField (f : Field) : Entry := ⟨Str.fromBytes f.name, Str.fromBytes f.value⟩

/-- The field that `DirSnapshot::fields` makes of an entry. -/
def Entry.field (e : Entry) : Field := Field.new e.n.toBytes e.v.toBytes

/-- `DirSnapshot::fields` of the entries that `dir_snapshot` records of a table. -/
def restoredFields (table : List Field) : List Field := (table.map Entry.ofField).map Entry.field

/-- A field without flags, such as every entry of a table that was known in full from the start. -/
def Field.Plain (f : Field) : Prop := f.sensitive = false ∧ f.unknown = false

/-- A table of plain entries comes back as it was. -/
theorem restored_fields_eq {table : List Field} (hplain : ∀ f ∈ table, f.Plain) :
    restoredFields table = table := by
  have hfield : ∀ f ∈ table, (Entry.ofField f).field = f := by
    intro f hf
    obtain ⟨hsensitive, hunknown⟩ := hplain f hf
    obtain ⟨name, value, sensitive, unknown⟩ := f
    rw [Entry.field, Entry.ofField, to_bytes_from_bytes, to_bytes_from_bytes, Field.new]
    simp only at hsensitive hunknown
    rw [hsensitive, hunknown]
  rw [restoredFields, List.map_map]
  exact (List.map_congr_left hfield).trans (List.map_id table)

/-! ## Snapshots -/

/-- `DirSnapshot`: one direction. `entries` is the dynamic table as of the byte `nextFrameSeq`, the
newest entry first. -/
structure DirSnapshot where
  dir : String
  src : String
  dst : String
  nextFrameSeq : Seq
  maxTableSize : Nat
  capacityObserved : Bool
  tableSize : Nat
  usable : Bool
  reason : Option String
  entries : List Entry
  deriving DecidableEq, Repr

/-- `DirSnapshot::fields`. -/
def DirSnapshot.fields (d : DirSnapshot) : List Field := d.entries.map Entry.field

/-- `ConnSnapshot`. -/
structure ConnSnapshot where
  connId : String
  client : String
  server : String
  firstSeenUnixUs : Nat
  dirs : List DirSnapshot
  deriving DecidableEq, Repr

/-- `CaptureSnapshot`. -/
structure CaptureSnapshot where
  version : Nat
  captureId : String
  startedUnixUs : Nat
  iface : String
  pcapPath : String
  connsUsable : Nat
  connsDegraded : Nat
  conns : List ConnSnapshot
  deriving DecidableEq, Repr

/-- `SNAPSHOT_VERSION`. -/
def snapshotVersion : Nat := 1

end H2Tap
