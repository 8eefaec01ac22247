import H2Tap.Lib.Panic
import H2Tap.Hpack.DecodeLoop

/-!
# Decoding a hostile header block

`Decoder::decode` as it stands in the source, with every index, split and subtraction checked when
it is made, and every loop cut off: an access out of range panics, and a loop that has not ended
returns nothing. `raw_decode` says that it does what `decode` does, so that no header block makes
the source panic or loop. The size must be that of the entries, which every call keeps.
-/

namespace H2Tap.Decoder

open Lib

/-! ## The size counts the entries -/

/-- The size is that of the entries. It need not be within the capacity: a restored table is taken
as it is. -/
def Counted (d : Decoder) : Prop := d.size = totalSize Field.size d.table

namespace Counted

variable {d : Decoder}

theorem reset_partial (d : Decoder) : d.resetPartial.Counted := rfl

theorem count_unresolved (h : d.Counted) : d.countUnresolved.Counted := h

theorem enforce_limit (h : d.Counted) : d.enforceLimit.Counted := by
  unfold enforceLimit
  split
  · rfl
  · exact h

theorem set_track_limit (h : d.Counted) (n : Nat) : (d.setTrackLimit n).Counted :=
  enforce_limit (d := { d with trackLimit := n }) h

theorem recheck_exact (h : d.Counted) : d.recheckExact.Counted := by
  unfold recheckExact
  split
  · exact h
  · split <;> exact h

theorem evict (h : d.Counted) : d.evict.Counted := by
  rw [evict_eq d h]
  rfl

theorem resize (h : d.Counted) (n : Nat) : (d.resize n).Counted :=
  (evict (d := { d with capacityObserved := true, maxSize := n }) h).enforce_limit.recheck_exact

theorem apply_peer_capacity (h : d.Counted) (n : Nat) : (d.applyPeerCapacity n).Counted := by
  unfold applyPeerCapacity
  split
  · exact resize (d := { d with capacityObserved := true }) h n
  · exact h

/-- A new entry adds its size. -/
theorem push (h : d.Counted) (f : Field) :
    Counted { d with size := d.size + f.size, table := f :: d.table } := by
  show d.size + f.size = totalSize Field.size (f :: d.table)
  rw [totalSize_cons, h, Nat.add_comm]

theorem insert (h : d.Counted) (f : Field) : (d.insert f).Counted := by
  unfold Decoder.insert
  split
  · exact h
  · split
    · rfl
    · exact (h.push f).evict.recheck_exact

variable [HuffmanDecoding]

theorem decode_rep (h : d.Counted) (first : UInt8) (b : Bytes) :
    (d.decodeRep first b).1.Counted :=
  decode_rep_preserves (fun _ h => h.count_unresolved) (fun _ f h => h.insert f)
    (fun _ n h => h.resize n) h

theorem decode (h : d.Counted) (block : Bytes) : (d.decode block).1.Counted :=
  decode_preserves (G := fun _ _ => True)
    (fun _ first tail h _ => h.decode_rep first (first :: tail))
    (fun _ _ => trivial) h

end Counted

/-- Decoding never lowers the count of unresolved references. -/
theorem unresolved_decode [HuffmanDecoding] (d : Decoder) (block : Bytes) :
    d.unresolved ≤ (d.decode block).1.unresolved := by
  refine decode_preserves (P := fun t => d.unresolved ≤ t.unresolved) (G := fun _ _ => True)
    (fun t first tail h _ => ?_) (fun _ _ => trivial) le_rfl
  refine decode_rep_preserves (P := fun t => d.unresolved ≤ t.unresolved) ?_ ?_ ?_ h
  · intro t ht
    exact Nat.le_succ_of_le ht
  · intro t f ht
    rwa [insert_unresolved]
  · intro t n ht
    rwa [resize_unresolved]

/-! ## The decoder with checked accesses -/

namespace Raw

/-- One turn of the loop of `Decoder::evict`. -/
def evictTurn (d : Decoder) : Outcome (LoopTurn Decoder Decoder) :=
  if d.size > d.maxSize then
    match d.table.getLast? with
    | some f => do
        let size ← sub d.size f.size
        return .more
          { d with
            table := d.table.dropLast
            size := size
            exact := d.exact || d.capacityObserved }
    | none => return .done d
  else return .done d

/-- `Decoder::evict`. -/
def evict (d : Decoder) : Outcome Decoder := loop evictTurn (d.table.length + 1) d

/-- `Decoder::resize`. -/
def resize (d : Decoder) (n : Nat) : Outcome Decoder := do
  let d ← evict { d with capacityObserved := true, maxSize := n }
  return d.enforceLimit.recheckExact

/-- `Decoder::insert`. -/
def insert (d : Decoder) (f : Field) : Outcome Decoder :=
  if d.overLimit then return d
  else if f.size > d.maxSize then return { d with table := [], size := 0, exact := true }
  else do
    let d ← evict { d with size := d.size + f.size, table := f :: d.table }
    return d.recheckExact

/-- `Decoder::lookup`. -/
def lookup (d : Decoder) (index : Nat) : Outcome (Option Field) :=
  if index = 0 then return none
  else if index ≤ staticTable.length then do
    let e ← Lib.index staticTable (← sub index 1)
    return some (Field.new (asciiBytes e.1) (asciiBytes e.2))
  else do
    let below ← sub index staticTable.length
    return d.table[← sub below 1]?

/-- The match that `decode` and `read_literal` make on an index. -/
def resolve (d : Decoder) (index : Nat) : Outcome (Decoder × Except HpackError Field) := do
  match ← lookup d index with
  | some f => return (d, .ok f)
  | none =>
      if d.isExact then return (d, .error (.badIndex index))
      else return ((d.placeholder index).1, .ok (d.placeholder index).2)

variable [HuffmanDecoding]

/-- `read_string`. -/
def readString (b : Bytes) : Outcome (Except HpackError (Bytes × Bytes)) :=
  match b.head? with
  | none => return .error .truncated
  | some first =>
      match readInt b 7 with
      | .error e => return .error e
      | .ok (len, rest) =>
          if len > rest.length then return .error .truncated
          else do
            let (raw, rest) ← splitAt rest len
            if first &&& 0x80 = 0 then return .ok (raw, rest)
            else
              match huffmanDecode raw with
              | some out => return .ok (out, rest)
              | none => return .error .huffman

/-- The value half of `read_literal`. -/
def readValue (d : Decoder) (name : Bytes) (unknown : Bool) (b : Bytes) :
    Outcome (Decoder × Except HpackError (Field × Bytes)) := do
  match ← readString b with
  | .error e => return (d, .error e)
  | .ok (value, rest) => return (d, .ok (⟨name, value, false, unknown⟩, rest))

/-- `Decoder::read_literal`. -/
def readLiteral (d : Decoder) (b : Bytes) (width : Nat) :
    Outcome (Decoder × Except HpackError (Field × Bytes)) :=
  match readInt b width with
  | .error e => return (d, .error e)
  | .ok (index, b) =>
      if index = 0 then do
        match ← readString b with
        | .error e => return (d, .error e)
        | .ok (name, b) => readValue d name false b
      else do
        match ← resolve d index with
        | (d, .error e) => return (d, .error e)
        | (d, .ok e) => readValue d e.name e.unknown b

/-- One iteration of the loop of `Decoder::decode`. -/
def decodeRep (d : Decoder) (first : UInt8) (b : Bytes) :
    Outcome (Decoder × Except HpackError (Option Field × Bytes)) :=
  if first &&& 0x80 ≠ 0 then
    match readInt b 7 with
    | .error e => return (d, .error e)
    | .ok (index, rest) =>
        if index = 0 then return (d, .error .zeroIndex)
        else do
          match ← resolve d index with
          | (d, .error e) => return (d, .error e)
          | (d, .ok f) => return (d, .ok (some f, rest))
  else if first &&& 0xc0 = 0x40 then do
    match ← readLiteral d b 6 with
    | (d, .error e) => return (d, .error e)
    | (d, .ok (f, rest)) => return (← insert d f, .ok (some f, rest))
  else if first &&& 0xe0 = 0x20 then
    match readInt b 5 with
    | .error e => return (d, .error e)
    | .ok (n, rest) => do return (← resize d n, .ok (none, rest))
  else if first &&& 0xf0 = 0x10 then do
    match ← readLiteral d b 4 with
    | (d, .error e) => return (d, .error e)
    | (d, .ok (f, rest)) => return (d, .ok (some { f with sensitive := true }, rest))
  else do
    match ← readLiteral d b 4 with
    | (d, .error e) => return (d, .error e)
    | (d, .ok (f, rest)) => return (d, .ok (some f, rest))

/-- How the loop of `Decoder::decode` goes on after an iteration. -/
def decodeNext (out : List Field) : Decoder × Except HpackError (Option Field × Bytes) →
    LoopTurn (Decoder × Bytes × List Field) (Decoder × Except HpackError (List Field))
  | (d, .error e) => .done (d, .error e)
  | (d, .ok (f, rest)) => .more (d, rest, out ++ f.toList)

/-- One turn of the loop of `Decoder::decode`, with the bytes left and the fields pushed so far. -/
def decodeTurn (s : Decoder × Bytes × List Field) :
    Outcome (LoopTurn (Decoder × Bytes × List Field)
      (Decoder × Except HpackError (List Field))) :=
  if s.2.1.isEmpty then return .done (s.1, .ok s.2.2)
  else do
    let first ← Lib.index s.2.1 0
    return decodeNext s.2.2 (← decodeRep s.1 first s.2.1)

/-- `Decoder::decode`. -/
def decode (d : Decoder) (block : Bytes) :
    Outcome (Decoder × Except HpackError (List Field)) :=
  loop decodeTurn (block.length + 1) (d, block, [])

end Raw

/-! ## No access is out of range -/

variable {d : Decoder}

/-- `evict` subtracts what its entries add up to, and drops one in every turn. -/
theorem raw_evict (h : d.Counted) : Raw.evict d = .some d.evict := by
  refine loop_ends Counted (fun t => t.table.length) Decoder.evict (fun t ht => ?_) h
    (Nat.lt_succ_self _)
  by_cases hover : t.size > t.maxSize
  · rw [Raw.evictTurn, if_pos hover]
    cases hlast : t.table.getLast? with
    | none =>
        rw [evict_of_no_last hlast]
        exact Or.inl rfl
    | some f =>
        have htable : t.table = t.table.dropLast ++ [f] :=
          (List.dropLast_append_getLast? f hlast).symm
        have htotal : t.size = totalSize Field.size t.table.dropLast + f.size := by
          rw [ht]
          conv_lhs => rw [htable]
          simp
        have hshorter : t.table.dropLast.length < t.table.length := by
          conv_rhs => rw [htable]
          simp
        dsimp only
        rw [sub_of_le (by omega), Outcome.some_bind]
        refine Or.inr ⟨_, rfl, ?_, hshorter, (evict_of_last hover hlast).symm⟩
        show t.size - f.size = totalSize Field.size t.table.dropLast
        omega
  · rw [Raw.evictTurn, if_neg hover, evict_of_fits hover]
    exact Or.inl rfl

theorem raw_resize (h : d.Counted) (n : Nat) : Raw.resize d n = .some (d.resize n) := by
  have hset : Counted { d with capacityObserved := true, maxSize := n } := h
  rw [Raw.resize, raw_evict hset]
  rfl

theorem raw_insert (h : d.Counted) (f : Field) : Raw.insert d f = .some (d.insert f) := by
  unfold Raw.insert Decoder.insert
  split
  · rfl
  · split
    · rfl
    · rw [raw_evict (h.push f)]
      rfl

/-- An index is in the static table, or past it by at least one. -/
theorem raw_lookup (d : Decoder) (index : Nat) : Raw.lookup d index = .some (d.lookup index) := by
  unfold Raw.lookup Decoder.lookup
  split
  · rfl
  · next hzero =>
      split
      · next hstatic =>
          have hlt : index - 1 < staticTable.length := by omega
          rw [sub_of_le (by omega), Outcome.some_bind, index_of_lt hlt, Outcome.some_bind,
            staticField, if_neg hzero, List.getElem?_eq_getElem hlt]
          rfl
      · rw [sub_of_le (by omega), Outcome.some_bind, sub_of_le (by omega), Outcome.some_bind,
          Outcome.pure_eq]

theorem raw_resolve (d : Decoder) (index : Nat) :
    Raw.resolve d index = .some (d.resolve index) := by
  rw [Raw.resolve, raw_lookup, Outcome.some_bind, Decoder.resolve]
  cases d.lookup index with
  | some f => rfl
  | none => cases hexact : d.isExact <;> rfl

variable [HuffmanDecoding]

theorem raw_read_string (b : Bytes) : Raw.readString b = .some (readString b) := by
  unfold Raw.readString readString
  cases b.head? with
  | none => rfl
  | some first =>
      cases readInt b 7 with
      | error e => rfl
      | ok read =>
          obtain ⟨len, rest⟩ := read
          dsimp only
          by_cases hlong : len > rest.length
          · rw [if_pos hlong, if_pos hlong]
            rfl
          · rw [if_neg hlong, if_neg hlong, split_at_of_le (by omega), Outcome.some_bind]
            dsimp only
            by_cases hplain : first &&& 0x80 = 0
            · rw [if_pos hplain, if_pos hplain]
              rfl
            · rw [if_neg hplain, if_neg hplain]
              cases huffmanDecode (rest.take len) <;> rfl

theorem raw_read_value (d : Decoder) (name : Bytes) (unknown : Bool) (b : Bytes) :
    Raw.readValue d name unknown b = .some (d.readValue name unknown b) := by
  rw [Raw.readValue, raw_read_string, Outcome.some_bind, Decoder.readValue]
  cases readString b <;> rfl

theorem raw_read_literal (d : Decoder) (b : Bytes) (width : Nat) :
    Raw.readLiteral d b width = .some (d.readLiteral b width) := by
  unfold Raw.readLiteral Decoder.readLiteral
  cases readInt b width with
  | error e => rfl
  | ok read =>
      obtain ⟨index, b⟩ := read
      dsimp only
      by_cases hzero : index = 0
      · rw [if_pos hzero, if_pos hzero, raw_read_string, Outcome.some_bind]
        cases readString b with
        | error e => rfl
        | ok name => exact raw_read_value d name.1 false name.2
      · rw [if_neg hzero, if_neg hzero, raw_resolve, Outcome.some_bind]
        obtain ⟨d', e | e⟩ := d.resolve index
        · rfl
        · exact raw_read_value d' e.name e.unknown b

/-- A literal leaves the table alone. -/
theorem Counted.read_literal {d' : Decoder} {b : Bytes} {width : Nat}
    {r : Except HpackError (Field × Bytes)} (h : d.Counted)
    (hlit : d.readLiteral b width = (d', r)) : d'.Counted := by
  rcases read_literal_frame hlit with rfl | rfl
  · exact h
  · exact h.count_unresolved

/-- One case for each representation, in the order of the source. -/
theorem raw_decode_rep (h : d.Counted) (first : UInt8) (b : Bytes) :
    Raw.decodeRep d first b = .some (d.decodeRep first b) := by
  unfold Raw.decodeRep Decoder.decodeRep
  by_cases hindexed : first &&& 0x80 ≠ 0
  · rw [if_pos hindexed, if_pos hindexed]
    cases readInt b 7 with
    | error e => rfl
    | ok read =>
        obtain ⟨index, rest⟩ := read
        dsimp only
        by_cases hzero : index = 0
        · rw [if_pos hzero, if_pos hzero]
          rfl
        · rw [if_neg hzero, if_neg hzero, raw_resolve, Outcome.some_bind]
          obtain ⟨d', e | f⟩ := d.resolve index <;> rfl
  rw [if_neg hindexed, if_neg hindexed]
  by_cases hincremental : first &&& 0xc0 = 0x40
  · rw [if_pos hincremental, if_pos hincremental, raw_read_literal, Outcome.some_bind]
    rcases hlit : d.readLiteral b 6 with ⟨d', e | ⟨f, rest⟩⟩
    · rfl
    · dsimp only
      rw [raw_insert (h.read_literal hlit)]
      rfl
  rw [if_neg hincremental, if_neg hincremental]
  by_cases hupdate : first &&& 0xe0 = 0x20
  · rw [if_pos hupdate, if_pos hupdate]
    cases readInt b 5 with
    | error e => rfl
    | ok read =>
        obtain ⟨n, rest⟩ := read
        dsimp only
        rw [raw_resize h]
        rfl
  rw [if_neg hupdate, if_neg hupdate]
  by_cases hnever : first &&& 0xf0 = 0x10
  · rw [if_pos hnever, if_pos hnever, raw_read_literal, Outcome.some_bind]
    obtain ⟨d', e | ⟨f, rest⟩⟩ := d.readLiteral b 4 <;> rfl
  · rw [if_neg hnever, if_neg hnever, raw_read_literal, Outcome.some_bind]
    obtain ⟨d', e | ⟨f, rest⟩⟩ := d.readLiteral b 4 <;> rfl

/-- The source decodes every header block without an access out of range, and to what `decode` makes
of it: every turn of its loop takes bytes of the block. -/
theorem raw_decode (h : d.Counted) (block : Bytes) :
    Raw.decode d block = .some (d.decode block) := by
  refine loop_ends (fun s : Decoder × Bytes × List Field => s.1.Counted)
    (fun s => s.2.1.length) (fun s => s.1.decodeLoop s.2.1 s.2.2) (fun s hs => ?_) h
    (Nat.lt_succ_self _)
  obtain ⟨t, b, out⟩ := s
  cases b with
  | nil =>
      rw [decode_loop_nil]
      exact Or.inl rfl
  | cons first tail =>
      have hcounted := Counted.decode_rep hs first (first :: tail)
      have hturn : Raw.decodeTurn (t, first :: tail, out) =
          Raw.decodeRep t first (first :: tail) >>= fun next =>
            .some (Raw.decodeNext out next) := rfl
      rw [hturn, raw_decode_rep hs, Outcome.some_bind]
      rcases hrep : t.decodeRep first (first :: tail) with ⟨d', e | ⟨f, rest⟩⟩
      · rw [decode_loop_of_error hrep]
        exact Or.inl rfl
      · rw [hrep] at hcounted
        exact Or.inr ⟨_, rfl, hcounted, decode_rep_length hrep, (decode_loop_of_ok hrep out).symm⟩

end H2Tap.Decoder
