import H2Tap.Basic

/-!
# HPACK integers and string literals

`read_int`, `read_string`, `write_int` and `write_string` of `hpack.rs`. A reader returns the value
and the bytes after it. The main results are `read_int_write_int`, the round trip on the whole range
the reader accepts, `read_int_write_int_of_large`, which says that a larger value is refused, and
`integer_coding_round_trips`, which says that the two sides meet at one bound.
-/

namespace H2Tap

/-- Why a header block fails to decode. -/
inductive HpackError where
  | truncated
  | intOverflow
  | zeroIndex
  | badIndex (index : Nat)
  | huffman
  deriving DecidableEq, Repr

/-- The continuation bytes of `read_int`: the value so far and the shift of the next group. -/
def readIntRest (value shift : Nat) : Bytes → Except HpackError (Nat × Bytes)
  | [] => .error .truncated
  | c :: rest =>
      if shift > 28 then .error .intOverflow
      else
        let group := (c &&& 0x7f).toNat <<< shift
        -- `checked_add` on a 64-bit `usize`
        if value + group > usizeMax then .error .intOverflow
        else if c &&& 0x80 = 0 then .ok (value + group, rest)
        else readIntRest (value + group) (shift + 7) rest

/-- `read_int`: an integer with an `n`-bit prefix. -/
def readInt (b : Bytes) (n : Nat) : Except HpackError (Nat × Bytes) :=
  match b with
  | [] => .error .truncated
  | first :: rest =>
      let max := (1 <<< n) - 1
      let value := first.toNat &&& max
      if value < max then .ok (value, rest) else readIntRest value 0 rest

/-- The continuation bytes of `write_int`. -/
def writeIntRest (value : Nat) : Bytes :=
  if value ≥ 128 then ((value &&& 0x7f) ||| 0x80).toUInt8 :: writeIntRest (value >>> 7)
  else [value.toUInt8]
termination_by value
decreasing_by
  rw [Nat.shiftRight_eq_div_pow]
  omega

/-- `write_int`: the bytes it appends to its output. -/
def writeInt (value n : Nat) (flags : UInt8) : Bytes :=
  let max := (1 <<< n) - 1
  if value < max then [flags ||| value.toUInt8]
  else (flags ||| max.toUInt8) :: writeIntRest (value - max)

/-- `write_string`: a length-prefixed string that is not Huffman coded. -/
def writeString (s : Bytes) : Bytes := writeInt s.length 7 0x00 ++ s

section

variable [HuffmanDecoding]

/-- `read_string`: a length-prefixed, optionally Huffman-coded string. -/
def readString (b : Bytes) : Except HpackError (Bytes × Bytes) :=
  match b.head? with
  | none => .error .truncated
  | some first =>
      match readInt b 7 with
      | .error e => .error e
      | .ok (len, rest) =>
          if len > rest.length then .error .truncated
          else if first &&& 0x80 = 0 then .ok (rest.take len, rest.drop len)
          else
            match huffmanDecode (rest.take len) with
            | some out => .ok (out, rest.drop len)
            | none => .error .huffman

end

/-! ## Readers consume what they return -/

/-- The continuation reader takes at most the groups that are left below the last shift, and what
they add to the value stays below `2 ^ 35`. -/
theorem read_int_rest_taken {value k v : Nat} {b rest : Bytes} (hk : k ≤ 5)
    (h : readIntRest value (7 * k) b = .ok (v, rest)) :
    v + 2 ^ (7 * k) ≤ value + 2 ^ 35 ∧
      ∃ taken, b = taken ++ rest ∧ 1 ≤ taken.length ∧ taken.length ≤ 5 - k := by
  induction b generalizing value k with
  | nil => cases h
  | cons c b ih =>
      simp only [readIntRest] at h
      split at h
      · cases h
      · next hshift =>
          have hgroup : (c &&& 0x7f).toNat ≤ 127 := by
            rw [UInt8.toNat_and]
            exact Nat.and_le_right
          have hterm : (c &&& 0x7f).toNat <<< (7 * k) ≤ 127 * 2 ^ (7 * k) := by
            rw [Nat.shiftLeft_eq]
            exact Nat.mul_le_mul_right _ hgroup
          have hnext : 2 ^ (7 * (k + 1)) = 128 * 2 ^ (7 * k) := by ring
          split at h
          · cases h
          · split at h
            · cases h
              have hlast : 2 ^ (7 * (k + 1)) ≤ 2 ^ 35 :=
                Nat.pow_le_pow_right (by decide) (by omega)
              exact ⟨by omega, [c], rfl, le_rfl, by
                show 1 ≤ 5 - k
                omega⟩
            · rw [show 7 * k + 7 = 7 * (k + 1) by ring] at h
              obtain ⟨hv, taken, rfl, -, hlen⟩ := ih (by omega) h
              refine ⟨by omega, c :: taken, rfl, ?_, ?_⟩
              · simp
              · show taken.length + 1 ≤ 5 - k
                omega

/-- What `read_int` returns lies in the range of the round trip, and it takes one to six bytes. -/
theorem read_int_taken {b rest : Bytes} {n v : Nat} (h : readInt b n = .ok (v, rest)) :
    v < 2 ^ 35 + 2 ^ n - 1 ∧ ∃ taken, b = taken ++ rest ∧ 1 ≤ taken.length ∧ taken.length ≤ 6 := by
  have hpos : 0 < 2 ^ n := Nat.two_pow_pos n
  have hmax : (1 <<< n) - 1 = 2 ^ n - 1 := by rw [Nat.one_shiftLeft]
  cases b with
  | nil => cases h
  | cons first b =>
      simp only [readInt] at h
      split at h
      · cases h
        exact ⟨by omega, [first], rfl, le_rfl, by
          show 1 ≤ 6
          decide⟩
      · have hlow : first.toNat &&& ((1 <<< n) - 1) ≤ (1 <<< n) - 1 := Nat.and_le_right
        obtain ⟨hv, taken, rfl, hone, hfive⟩ := read_int_rest_taken (k := 0) (by decide) h
        refine ⟨by omega, first :: taken, rfl, ?_, ?_⟩
        · simp
        · show taken.length + 1 ≤ 6
          omega

/-- An integer takes at least one byte. -/
theorem read_int_length {b rest : Bytes} {n v : Nat} (h : readInt b n = .ok (v, rest)) :
    rest.length < b.length := by
  obtain ⟨-, taken, rfl, hone, -⟩ := read_int_taken h
  rw [List.length_append]
  omega

/-- A string takes at least one byte. -/
theorem read_string_length [HuffmanDecoding] {b s rest : Bytes}
    (h : readString b = .ok (s, rest)) : rest.length < b.length := by
  unfold readString at h
  split at h
  · cases h
  · split at h
    · cases h
    · next len rest' hint =>
        have hlen := read_int_length hint
        split at h
        · cases h
        · split at h
          · cases h
            simp only [List.length_drop]
            omega
          · split at h
            · cases h
              simp only [List.length_drop]
              omega
            · cases h

/-! ## Bit patterns -/

theorem and_mask_eq_mod (n v : Nat) : v &&& ((1 <<< n) - 1) = v % 2 ^ n := by
  rw [Nat.one_shiftLeft, Nat.and_two_pow_sub_one_eq_mod]

/-- A continuation byte carries the low seven bits and the continuation flag. -/
theorem continuation_byte (v : Nat) :
    (((v &&& 0x7f) ||| 0x80).toUInt8 &&& 0x7f).toNat = v % 128 ∧
      ((v &&& 0x7f) ||| 0x80).toUInt8 &&& 0x80 ≠ 0 := by
  have hmod : v &&& 0x7f = v % 128 := Nat.and_two_pow_sub_one_eq_mod v 7
  have hall : ∀ w < 128, ((w ||| 0x80).toUInt8 &&& 0x7f).toNat = w ∧
      (w ||| 0x80).toUInt8 &&& 0x80 ≠ 0 := by decide +kernel
  rw [hmod]
  exact hall _ (Nat.mod_lt _ (by decide))

/-- A final byte has no continuation flag. -/
theorem final_byte {v : Nat} (h : v < 128) :
    (v.toUInt8 &&& 0x7f).toNat = v ∧ v.toUInt8 &&& 0x80 = 0 := by
  have hall : ∀ w < 128, (w.toUInt8 &&& 0x7f).toNat = w ∧ w.toUInt8 &&& 0x80 = 0 := by
    decide +kernel
  exact hall v h

/-! ## Round trip -/

/-- The continuation reader undoes the continuation writer while the shift stays in range. -/
theorem read_int_rest_write_int_rest (v acc k : Nat) (rest : Bytes) (hv : v < 2 ^ (35 - 7 * k))
    (hk : k ≤ 4) (hacc : acc + v * 2 ^ (7 * k) ≤ usizeMax) :
    readIntRest acc (7 * k) (writeIntRest v ++ rest) = .ok (acc + v * 2 ^ (7 * k), rest) := by
  induction v using writeIntRest.induct generalizing acc k with
  | case1 v hge ih =>
      obtain ⟨hlow, hflag⟩ := continuation_byte v
      have hk3 : k ≤ 3 := by
        by_contra hcon
        have : k = 4 := by omega
        subst this
        omega
      have hshift : v >>> 7 = v / 128 := Nat.shiftRight_eq_div_pow v 7
      have hdigits : v = v % 128 + 128 * (v / 128) := (Nat.mod_add_div v 128).symm
      have hpow : 2 ^ (7 * (k + 1)) = 128 * 2 ^ (7 * k) := by ring
      have hsum : acc + v % 128 * 2 ^ (7 * k) + v / 128 * 2 ^ (7 * (k + 1)) =
          acc + v * 2 ^ (7 * k) := by
        conv_rhs => rw [hdigits]
        rw [hpow]
        ring
      have hnext := ih (acc + v % 128 * 2 ^ (7 * k)) (k + 1)
        (by
          rw [hshift]
          have : 2 ^ (35 - 7 * k) = 128 * 2 ^ (35 - 7 * (k + 1)) := by
            rw [show 35 - 7 * k = (35 - 7 * (k + 1)) + 7 by omega, Nat.pow_add]
            ring
          omega)
        (by omega)
        (by rw [hshift, hsum]; exact hacc)
      rw [writeIntRest, if_pos hge, List.cons_append, readIntRest]
      rw [if_neg (by omega)]
      simp only [hlow, hflag, Nat.shiftLeft_eq, if_false]
      rw [if_neg (by
        have : v % 128 * 2 ^ (7 * k) ≤ v * 2 ^ (7 * k) :=
          Nat.mul_le_mul_right _ (Nat.mod_le _ _)
        omega)]
      rw [show 7 * k + 7 = 7 * (k + 1) by ring, hnext, hshift, hsum]
  | case2 v hlt =>
      obtain ⟨hlow, hflag⟩ := final_byte (v := v) (by omega)
      rw [writeIntRest, if_neg hlt, List.cons_append, List.nil_append, readIntRest]
      rw [if_neg (by omega)]
      simp only [hlow, hflag, Nat.shiftLeft_eq, if_true]
      rw [if_neg (by omega)]

/-- A value with more than five groups is refused by the continuation reader. -/
theorem read_int_rest_of_large (v acc k : Nat) (rest : Bytes) (hv : 2 ^ (35 - 7 * k) ≤ v)
    (hk : k ≤ 5) : readIntRest acc (7 * k) (writeIntRest v ++ rest) = .error .intOverflow := by
  induction v using writeIntRest.induct generalizing acc k with
  | case1 v hge ih =>
      obtain ⟨hlow, hflag⟩ := continuation_byte v
      rw [writeIntRest, if_pos hge, List.cons_append, readIntRest]
      by_cases hk5 : k = 5
      · rw [if_pos (by omega)]
      · rw [if_neg (by omega)]
        simp only [hlow, hflag, Nat.shiftLeft_eq, if_false]
        split
        · rfl
        · rw [show 7 * k + 7 = 7 * (k + 1) by ring]
          refine ih _ (k + 1) ?_ (by omega)
          rw [Nat.shiftRight_eq_div_pow]
          have : 2 ^ (35 - 7 * k) = 128 * 2 ^ (35 - 7 * (k + 1)) := by
            rw [show 35 - 7 * k = (35 - 7 * (k + 1)) + 7 by omega, Nat.pow_add]
            ring
          omega
  | case2 v hlt =>
      have hk5 : k = 5 := by
        by_contra hne
        have : 2 ^ 7 ≤ 2 ^ (35 - 7 * k) := Nat.pow_le_pow_right (by decide) (by omega)
        omega
      rw [writeIntRest, if_neg hlt, List.cons_append, List.nil_append, readIntRest,
        if_pos (by omega)]

/-- The first byte keeps the flags above the prefix and the value below it. -/
theorem flagged_byte {n v : Nat} {flags : UInt8} (hn : n ≤ 8) (hflags : flags.toNat % 2 ^ n = 0)
    (hv : v < 2 ^ n) : (flags ||| v.toUInt8).toNat = flags.toNat + v := by
  have hsmall : v < 2 ^ 8 := lt_of_lt_of_le hv (Nat.pow_le_pow_right (by decide) hn)
  have hbyte : v.toUInt8.toNat = v := by
    rw [Nat.toUInt8, UInt8.toNat_ofNat']
    omega
  have hquot : flags.toNat = 2 ^ n * (flags.toNat / 2 ^ n) := by
    have := Nat.mod_add_div flags.toNat (2 ^ n)
    omega
  rw [UInt8.toNat_or, hbyte, hquot, ← Nat.two_pow_add_eq_or_of_lt hv]

/-- Every encoding starts with a byte that carries the flags. -/
theorem write_int_head (v n : Nat) (flags : UInt8) :
    ∃ low tail, writeInt v n flags = (flags ||| low.toUInt8) :: tail ∧ low < 2 ^ n := by
  have hpos : 0 < 2 ^ n := Nat.two_pow_pos n
  have hmax : (1 <<< n) - 1 = 2 ^ n - 1 := by rw [Nat.one_shiftLeft]
  by_cases h : v < (1 <<< n) - 1
  · exact ⟨v, [], by simp [writeInt, h], by omega⟩
  · exact ⟨(1 <<< n) - 1, _, by simp only [writeInt, h, if_false]; rfl, by omega⟩

/-- `read_int` undoes `write_int` on every value below `2 ^ 35 + 2 ^ n - 1`, whatever follows. -/
theorem read_int_write_int {v n : Nat} {flags : UInt8} (rest : Bytes) (hn : n ≤ 8)
    (hflags : flags.toNat % 2 ^ n = 0) (hv : v < 2 ^ 35 + 2 ^ n - 1) :
    readInt (writeInt v n flags ++ rest) n = .ok (v, rest) := by
  have hpos : 0 < 2 ^ n := Nat.two_pow_pos n
  have hmax : (1 <<< n) - 1 = 2 ^ n - 1 := by rw [Nat.one_shiftLeft]
  have hbound : 2 ^ n ≤ 2 ^ 8 := Nat.pow_le_pow_right (by decide) hn
  have hlow : ∀ w < 2 ^ n, (flags ||| w.toUInt8).toNat &&& ((1 <<< n) - 1) = w := by
    intro w hw
    rw [and_mask_eq_mod, flagged_byte hn hflags hw, Nat.add_mod, hflags, Nat.zero_add,
      Nat.mod_mod, Nat.mod_eq_of_lt hw]
  by_cases h : v < (1 <<< n) - 1
  · simp only [writeInt, h, if_true, List.cons_append, List.nil_append, readInt]
    rw [hlow v (by omega), if_pos h]
  · simp only [writeInt, h, if_false, List.cons_append, readInt]
    rw [hlow _ (by omega), if_neg (by omega)]
    have hrest := read_int_rest_write_int_rest (v - ((1 <<< n) - 1)) ((1 <<< n) - 1) 0 rest
      (by omega) (by decide) (by simp only [usizeMax]; omega)
    rw [Nat.mul_zero, Nat.pow_zero, Nat.mul_one] at hrest
    rw [hrest, show (1 <<< n) - 1 + (v - ((1 <<< n) - 1)) = v by omega]

/-- A value from `2 ^ 35 + 2 ^ n - 1` on does not fit in five continuation bytes. -/
theorem read_int_write_int_of_large {v n : Nat} {flags : UInt8} (rest : Bytes) (hn : n ≤ 8)
    (hflags : flags.toNat % 2 ^ n = 0) (hv : 2 ^ 35 + 2 ^ n - 1 ≤ v) :
    readInt (writeInt v n flags ++ rest) n = .error .intOverflow := by
  have hpos : 0 < 2 ^ n := Nat.two_pow_pos n
  have hmax : (1 <<< n) - 1 = 2 ^ n - 1 := by rw [Nat.one_shiftLeft]
  have hlow : (flags ||| ((1 <<< n) - 1).toUInt8).toNat &&& ((1 <<< n) - 1) = (1 <<< n) - 1 := by
    rw [and_mask_eq_mod, flagged_byte hn hflags (by omega), Nat.add_mod, hflags, Nat.zero_add,
      Nat.mod_mod, Nat.mod_eq_of_lt (by omega)]
  have h : ¬ v < (1 <<< n) - 1 := by omega
  simp only [writeInt, h, if_false, List.cons_append, readInt]
  rw [hlow, if_neg (by omega)]
  exact read_int_rest_of_large _ _ 0 rest (by omega) (by decide)

/-- `write_int` and `read_int` meet at one bound: below it every value is read back whatever
follows, under a first byte that keeps the flags, and every value that is read lies below it, took
at most six of the bytes, and is read back from its own encoding. -/
theorem integer_coding_round_trips {n : Nat} {flags : UInt8} (hn : 4 ≤ n ∧ n ≤ 7)
    (hflags : flags.toNat % 2 ^ n = 0) :
    (∀ v < 2 ^ 35 + 2 ^ n - 1, ∀ bs : Bytes,
      readInt (writeInt v n flags ++ bs) n = .ok (v, bs) ∧
        ∃ first tail, writeInt v n flags = first :: tail ∧
          first.toNat >>> n = flags.toNat >>> n) ∧
    (∀ (b : Bytes) (v : Nat) (rest : Bytes), readInt b n = .ok (v, rest) →
      v < 2 ^ 35 + 2 ^ n - 1 ∧
        (∃ taken, b = taken ++ rest ∧ 1 ≤ taken.length ∧ taken.length ≤ 6) ∧
        ∀ bs : Bytes, readInt (writeInt v n flags ++ bs) n = .ok (v, bs)) := by
  have hn8 : n ≤ 8 := by omega
  refine ⟨fun v hv bs => ⟨read_int_write_int bs hn8 hflags hv, ?_⟩, fun b v rest hread => ?_⟩
  · obtain ⟨low, tail, hhead, hlow⟩ := write_int_head v n flags
    refine ⟨_, tail, hhead, ?_⟩
    rw [Nat.shiftRight_eq_div_pow, Nat.shiftRight_eq_div_pow, flagged_byte hn8 hflags hlow,
      Nat.add_div_of_dvd_right (Nat.dvd_of_mod_eq_zero hflags), Nat.div_eq_of_lt hlow, Nat.add_zero]
  · obtain ⟨hv, htaken⟩ := read_int_taken hread
    exact ⟨hv, htaken, fun bs => read_int_write_int bs hn8 hflags hv⟩

/-- The largest value of the seven-bit prefix with a byte after it, and a value that is read from
more continuation bytes than its own encoding has. -/
theorem integer_coding_round_trips_seven :
    readInt (writeInt (2 ^ 35 + 126) 7 0x80 ++ [0x2a]) 7 = .ok (2 ^ 35 + 126, [0x2a]) ∧
      readInt [0xff, 0x80, 0x00] 7 = .ok (127, []) ∧
      readInt (writeInt 127 7 0x80 ++ []) 7 = .ok (127, []) := by
  have hread : readInt [0xff, 0x80, 0x00] 7 = .ok (127, []) := by decide +kernel
  have h := @integer_coding_round_trips 7 0x80 (by decide) (by decide)
  exact ⟨(h.1 (2 ^ 35 + 126) (by decide) [0x2a]).1, hread, (h.2 _ _ _ hread).2.2 []⟩

end H2Tap
