import H2Tap.Hpack.Integer

/-!
# The tolerant HPACK decoder

`Field` and `Decoder` of `hpack.rs`. The dynamic table lists observed entries only, newest first, so
index 62 is the head of `table`. An operation that can fail after it has changed the decoder returns
the decoder together with its result, as the source's `&mut self` methods do.
-/

namespace H2Tap

/-- `MIN_ENTRY_SIZE`: the overhead of a table entry, and the size of the smallest one. -/
def minEntrySize : Nat := 32

/-- `DEFAULT_TABLE_SIZE`. -/
def defaultTableSize : Nat := 4096

/-- A header field. `sensitive` marks a never-indexed literal, `unknown` a field whose name or
value came from a table entry that was never observed. -/
structure Field where
  name : Bytes
  value : Bytes
  sensitive : Bool
  unknown : Bool
  deriving DecidableEq, Repr

/-- `Field::new`. -/
def Field.new (name value : Bytes) : Field := ⟨name, value, false, false⟩

/-- `Field::size`. -/
def Field.size (f : Field) : Nat := f.name.length + f.value.length + minEntrySize

/-- RFC 7541 Appendix A as the source lists it, indices 1 to 61. -/
def staticTable : List (String × String) :=
  [(":authority", ""), (":method", "GET"), (":method", "POST"), (":path", "/"),
   (":path", "/index.html"), (":scheme", "http"), (":scheme", "https"), (":status", "200"),
   (":status", "204"), (":status", "206"), (":status", "304"), (":status", "400"),
   (":status", "404"), (":status", "500"), ("accept-charset", ""),
   ("accept-encoding", "gzip, deflate"), ("accept-language", ""), ("accept-ranges", ""),
   ("accept", ""), ("access-control-allow-origin", ""), ("age", ""), ("allow", ""),
   ("authorization", ""), ("cache-control", ""), ("content-disposition", ""),
   ("content-encoding", ""), ("content-language", ""), ("content-length", ""),
   ("content-location", ""), ("content-range", ""), ("content-type", ""), ("cookie", ""),
   ("date", ""), ("etag", ""), ("expect", ""), ("expires", ""), ("from", ""), ("host", ""),
   ("if-match", ""), ("if-modified-since", ""), ("if-none-match", ""), ("if-range", ""),
   ("if-unmodified-since", ""), ("last-modified", ""), ("link", ""), ("location", ""),
   ("max-forwards", ""), ("proxy-authenticate", ""), ("proxy-authorization", ""), ("range", ""),
   ("referer", ""), ("refresh", ""), ("retry-after", ""), ("server", ""), ("set-cookie", ""),
   ("strict-transport-security", ""), ("transfer-encoding", ""), ("user-agent", ""), ("vary", ""),
   ("via", ""), ("www-authenticate", "")]

/-- The field at a static index, `none` outside 1 to 61. -/
def staticField (index : Nat) : Option Field :=
  if index = 0 then none
  else (staticTable[index - 1]?).map fun e => Field.new (asciiBytes e.1) (asciiBytes e.2)

/-- The decoder of one direction. `exact` says that no entry inserted before observation began can
still be in the peer's table, `capacityObserved` that `maxSize` came from the wire. -/
structure Decoder where
  table : List Field
  size : Nat
  maxSize : Nat
  exact : Bool
  unresolved : Nat
  capacityObserved : Bool
  trackLimit : Nat
  overLimit : Bool
  deriving DecidableEq, Repr

namespace Decoder

/-- `Decoder::new_partial`: a connection joined mid-stream. -/
def newPartial : Decoder where
  table := []
  size := 0
  maxSize := defaultTableSize
  exact := false
  unresolved := 0
  capacityObserved := false
  trackLimit := usizeMax
  overLimit := false

/-- `Decoder::new_exact`: a connection watched from its first byte. -/
def newExact : Decoder := { newPartial with exact := true, capacityObserved := true }

/-- `Decoder::from_entries`: restored from a snapshot. -/
def fromEntries (entries : List Field) (maxSize : Nat) : Decoder where
  table := entries
  size := (entries.map Field.size).sum
  maxSize := maxSize
  exact := true
  unresolved := 0
  capacityObserved := true
  trackLimit := usizeMax
  overLimit := false

/-- `Decoder::reset_partial`: forget the table, keep the capacity. -/
def resetPartial (d : Decoder) : Decoder := { d with table := [], size := 0, exact := false }

/-- `Decoder::is_exact`. -/
def isExact (d : Decoder) : Bool := d.exact && !d.overLimit

/-- `Decoder::enforce_limit`. -/
def enforceLimit (d : Decoder) : Decoder :=
  if d.maxSize > d.trackLimit then { d with overLimit := true, table := [], size := 0 } else d

/-- `Decoder::set_track_limit`. -/
def setTrackLimit (d : Decoder) (n : Nat) : Decoder := { d with trackLimit := n }.enforceLimit

/-- `Decoder::evict`: drop entries from the tail while the table is over its capacity. -/
def evict (d : Decoder) : Decoder :=
  if d.size > d.maxSize then
    match _h : d.table.getLast? with
    | some f =>
        evict
          { d with
            table := d.table.dropLast
            size := d.size - f.size
            -- one of our own entries went, so every older entry went before it
            exact := d.exact || d.capacityObserved }
    | none => d
  else d
termination_by d.table.length
decreasing_by
  have hne : d.table ≠ [] := by
    rintro hnil
    simp [hnil] at _h
  have := List.length_pos_iff.mpr hne
  simp only [List.length_dropLast]
  omega

/-- `Decoder::recheck_exact`. -/
def recheckExact (d : Decoder) : Decoder :=
  if !d.capacityObserved || d.overLimit then d
  else if !d.exact && d.size + minEntrySize > d.maxSize then { d with exact := true }
  else d

/-- `Decoder::resize`. -/
def resize (d : Decoder) (n : Nat) : Decoder :=
  { d with capacityObserved := true, maxSize := n }.evict.enforceLimit.recheckExact

/-- `Decoder::apply_peer_capacity`. -/
def applyPeerCapacity (d : Decoder) (n : Nat) : Decoder :=
  if n < d.maxSize then { d with capacityObserved := true }.resize n
  else { d with capacityObserved := true }

/-- `Decoder::insert`. -/
def insert (d : Decoder) (f : Field) : Decoder :=
  if d.overLimit then d
  else if f.size > d.maxSize then { d with table := [], size := 0, exact := true }
  else { d with size := d.size + f.size, table := f :: d.table }.evict.recheckExact

/-- `Decoder::lookup`: `none` for an index below the observed entries. -/
def lookup (d : Decoder) (index : Nat) : Option Field :=
  if index = 0 then none
  else if index ≤ staticTable.length then staticField index
  else d.table[index - staticTable.length - 1]?

/-- The field `Decoder::placeholder` returns for an index that cannot be resolved. -/
def placeholderField (index : Nat) : Field :=
  ⟨asciiBytes ("@unresolved-idx-" ++ toString index), [], false, true⟩

/-- `Decoder::placeholder`. -/
def placeholder (d : Decoder) (index : Nat) : Decoder × Field :=
  ({ d with unresolved := d.unresolved + 1 }, placeholderField index)

/-- The three-way match `decode` and `read_literal` make on an index: a table entry, an error when
the table is known in full, or a placeholder. -/
def resolve (d : Decoder) (index : Nat) : Decoder × Except HpackError Field :=
  match d.lookup index with
  | some f => (d, .ok f)
  | none =>
      if d.isExact then (d, .error (.badIndex index))
      else ((d.placeholder index).1, .ok (d.placeholder index).2)

variable [HuffmanDecoding]

/-- The value half of `read_literal`. -/
def readValue (d : Decoder) (name : Bytes) (unknown : Bool) (b : Bytes) :
    Decoder × Except HpackError (Field × Bytes) :=
  match readString b with
  | .error e => (d, .error e)
  | .ok (value, rest) => (d, .ok (⟨name, value, false, unknown⟩, rest))

/-- `Decoder::read_literal`: a literal whose name index has a `width`-bit prefix. -/
def readLiteral (d : Decoder) (b : Bytes) (width : Nat) :
    Decoder × Except HpackError (Field × Bytes) :=
  match readInt b width with
  | .error e => (d, .error e)
  | .ok (index, b) =>
      if index = 0 then
        match readString b with
        | .error e => (d, .error e)
        | .ok (name, b) => d.readValue name false b
      else
        match d.resolve index with
        | (d, .error e) => (d, .error e)
        | (d, .ok e) => d.readValue e.name e.unknown b

/-- One iteration of the loop of `Decoder::decode` on a block that starts with `first`: the field
it pushes, if any, and the bytes left. -/
def decodeRep (d : Decoder) (first : UInt8) (b : Bytes) :
    Decoder × Except HpackError (Option Field × Bytes) :=
  if first &&& 0x80 ≠ 0 then
    -- indexed header field
    match readInt b 7 with
    | .error e => (d, .error e)
    | .ok (index, rest) =>
        if index = 0 then (d, .error .zeroIndex)
        else
          match d.resolve index with
          | (d, .error e) => (d, .error e)
          | (d, .ok f) => (d, .ok (some f, rest))
  else if first &&& 0xc0 = 0x40 then
    -- literal with incremental indexing; a placeholder name is inserted too
    match d.readLiteral b 6 with
    | (d, .error e) => (d, .error e)
    | (d, .ok (f, rest)) => (d.insert f, .ok (some f, rest))
  else if first &&& 0xe0 = 0x20 then
    -- dynamic table size update
    match readInt b 5 with
    | .error e => (d, .error e)
    | .ok (n, rest) => (d.resize n, .ok (none, rest))
  else if first &&& 0xf0 = 0x10 then
    -- literal never indexed
    match d.readLiteral b 4 with
    | (d, .error e) => (d, .error e)
    | (d, .ok (f, rest)) => (d, .ok (some { f with sensitive := true }, rest))
  else
    -- literal without indexing
    match d.readLiteral b 4 with
    | (d, .error e) => (d, .error e)
    | (d, .ok (f, rest)) => (d, .ok (some f, rest))

/-! ## The decode loop -/

theorem read_value_length {d d' : Decoder} {name b rest : Bytes} {unknown : Bool} {f : Field}
    (h : d.readValue name unknown b = (d', .ok (f, rest))) : rest.length < b.length := by
  unfold readValue at h
  split at h
  · cases h
  · next hvalue =>
      cases h
      exact read_string_length hvalue

/-- A literal takes at least one byte. -/
theorem read_literal_length {d d' : Decoder} {b rest : Bytes} {width : Nat} {f : Field}
    (h : d.readLiteral b width = (d', .ok (f, rest))) : rest.length < b.length := by
  unfold readLiteral at h
  split at h
  · cases h
  · next index b' hint =>
      have hb' := read_int_length hint
      split at h
      · split at h
        · cases h
        · next hname =>
            have := read_string_length hname
            have := read_value_length h
            omega
      · split at h
        · cases h
        · have := read_value_length h
          omega

/-- Every iteration of the decode loop takes at least one byte. -/
theorem decode_rep_length {d d' : Decoder} {first : UInt8} {b rest : Bytes} {f : Option Field}
    (h : d.decodeRep first b = (d', .ok (f, rest))) : rest.length < b.length := by
  unfold decodeRep at h
  split at h
  · split at h
    · cases h
    · next hint =>
        have := read_int_length hint
        split at h
        · cases h
        · split at h
          · cases h
          · cases h
            exact this
  · split at h
    · split at h
      · cases h
      · next hlit =>
          cases h
          exact read_literal_length hlit
    · split at h
      · split at h
        · cases h
        · next hint =>
            cases h
            exact read_int_length hint
      · split at h
        all_goals
          split at h
          · cases h
          · next hlit =>
              cases h
              exact read_literal_length hlit

/-- The loop of `Decoder::decode`, with the fields pushed so far. -/
def decodeLoop (d : Decoder) (b : Bytes) (out : List Field) :
    Decoder × Except HpackError (List Field) :=
  match b with
  | [] => (d, .ok out)
  | first :: tail =>
      match _h : d.decodeRep first (first :: tail) with
      | (d, .error e) => (d, .error e)
      | (d, .ok (f, rest)) => decodeLoop d rest (out ++ f.toList)
termination_by b.length
decreasing_by exact decode_rep_length _h

/-- `Decoder::decode`: one complete header block. -/
def decode (d : Decoder) (block : Bytes) : Decoder × Except HpackError (List Field) :=
  d.decodeLoop block []

/-- RFC 7541 C.3.1 on a decoder that saw the connection start. -/
example : @decode noHuffman.toHuffmanDecoding newExact
    ([0x82, 0x86, 0x84, 0x41, 0x0f] ++ asciiBytes "www.example.com") =
    let authority := Field.new (asciiBytes ":authority") (asciiBytes "www.example.com")
    ({ newExact with table := [authority], size := 57 },
      .ok [Field.new (asciiBytes ":method") (asciiBytes "GET"),
        Field.new (asciiBytes ":scheme") (asciiBytes "http"),
        Field.new (asciiBytes ":path") (asciiBytes "/"), authority]) := by
  decide +kernel

end Decoder

end H2Tap
