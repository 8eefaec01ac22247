import H2Tap.Basic
import H2Tap.Lib.Separated

/-!
# The list of ports

`--ports` takes ports and ranges of them between commas (`parse_ports` of `main.rs`), and the daemon
prints the ports that it watches in the same form (`fmt_ports` of `capture.rs`). What is accepted
is a strictly ascending list of the ports that the parts name, and printing it gives text that is
read as the same list (`parse_ports_spec`).
-/

namespace H2Tap

open Lib

/-- `str::trim`. -/
def trim (s : List Char) : List Char := (s.dropWhile isWhitespace).rdropWhile isWhitespace

/-- `str::split_once`. -/
def splitOnce (sep : Char) (s : List Char) : Option (List Char × List Char) :=
  let (before, rest) := s.span fun c => c != sep
  match rest with
  | [] => none
  | _ :: after => some (before, after)

/-- One turn of the loop over the digits of a number. -/
def u16Digit (acc : Nat) (c : Char) : Option Nat :=
  if c.isDigit then
    let n := 10 * acc + (c.toNat - 48)
    if n < 2 ^ 16 then some n else none
  else none

/-- `u16::from_str`. A plus sign is accepted. -/
def u16FromStr (s : List Char) : Option UInt16 :=
  let digits := if s.head? = some '+' then s.tail else s
  if digits = [] then none else (digits.foldlM u16Digit 0).map UInt16.ofNat

/-- What is wrong with a list of ports. -/
inductive PortError where
  | badPort (text : List Char)
  | emptyRange (lo hi : UInt16)
  deriving DecidableEq

/-- `parse` of a port; the message shows `shown`. -/
def readPort (s shown : List Char) : Except PortError UInt16 :=
  match u16FromStr s with
  | some port => .ok port
  | none => .error (.badPort shown)

/-- `a..=b`. -/
def portRange (lo hi : UInt16) : List UInt16 :=
  (List.range' lo.toNat (hi.toNat + 1 - lo.toNat)).map UInt16.ofNat

/-- What one part of the list adds. -/
def portsOfPart (part : List Char) : Except PortError (List UInt16) :=
  let part := trim part
  if part = [] then .ok []
  else
    match splitOnce '-' part with
    | some (a, b) =>
        match readPort (trim a) a with
        | .error e => .error e
        | .ok lo =>
            match readPort (trim b) b with
            | .error e => .error e
            | .ok hi => if lo > hi then .error (.emptyRange lo hi) else .ok (portRange lo hi)
    | none => (readPort part part).map fun port => [port]

/-- The loop of `parse_ports` over the parts. -/
def portsOfParts (out : List UInt16) : List (List Char) → Except PortError (List UInt16)
  | [] => .ok out
  | part :: parts =>
      match portsOfPart part with
      | .error e => .error e
      | .ok ports => portsOfParts (out ++ ports) parts

/-- `parse_ports`. -/
def parsePorts (spec : String) : Except PortError (List UInt16) :=
  (portsOfParts [] (spec.toList.splitOn ',')).map fun out =>
    (out.insertionSort (· ≤ ·)).destutter (· ≠ ·)

/-- `fmt_ports`. -/
def fmtPorts (ports : List UInt16) : String :=
  ",".intercalate (ports.map fun port => toString port.toNat)

example : parsePorts " 80 , 7777,+80, 29500 - 29502" =
    .ok [80, 7777, 29500, 29501, 29502] := by
  decide +kernel

/-! ## Numbers -/

/-- The number that some digits stand for. -/
def digitsValue (digits : List Char) : Nat := Nat.ofDigitChars 10 digits 0

private theorem value_le (digits : List Char) (acc : Nat) :
    acc ≤ Nat.ofDigitChars 10 digits acc := by
  induction digits generalizing acc with
  | nil => rw [Nat.ofDigitChars_nil]
  | cons c digits ih =>
      rw [Nat.ofDigitChars_cons]
      exact le_trans (by omega) (ih _)

/-- Checking every sum is checking the number. -/
theorem fold_digits_iff (digits : List Char) (acc n : Nat) (hacc : acc < 2 ^ 16) :
    digits.foldlM u16Digit acc = some n ↔
      (∀ c ∈ digits, c.isDigit = true) ∧ Nat.ofDigitChars 10 digits acc = n ∧ n < 2 ^ 16 := by
  induction digits generalizing acc with
  | nil =>
      simp only [List.foldlM_nil, Nat.ofDigitChars_nil, List.not_mem_nil, false_implies,
        implies_true, true_and]
      constructor
      · intro h
        obtain rfl := Option.some.inj h
        exact ⟨rfl, hacc⟩
      · rintro ⟨rfl, -⟩
        rfl
  | cons c digits ih =>
      rw [List.foldlM_cons, Nat.ofDigitChars_cons, List.forall_mem_cons]
      have hle := value_le digits (10 * acc + (c.toNat - 48))
      cases hc : c.isDigit with
      | false => simp [u16Digit, hc]
      | true =>
          by_cases hfits : 10 * acc + (c.toNat - 48) < 2 ^ 16
          · have hstep : u16Digit acc c = some (10 * acc + (c.toNat - 48)) := by
              simp only [u16Digit, hc, if_true, hfits]
            rw [hstep]
            simpa using ih _ hfits
          · have hstep : u16Digit acc c = none := by
              simp only [u16Digit, hc, if_true, hfits, if_false]
            rw [hstep]
            simp only [Option.bind_eq_bind, Option.bind_none, reduceCtorEq, false_iff, not_and,
              true_and]
            intro _ hn
            have hzero : '0'.toNat = 48 := rfl
            rw [hzero] at hn
            omega

/-- A port is read from its decimal digits, with a plus sign or without. -/
theorem u16_from_str_iff (s : List Char) (port : UInt16) :
    u16FromStr s = some port ↔
      ∃ digits, digits ≠ [] ∧ (s = digits ∨ s = '+' :: digits) ∧
        (∀ c ∈ digits, c.isDigit = true) ∧ digitsValue digits = port.toNat := by
  have hread : ∀ digits : List Char, (digits.foldlM u16Digit 0).map UInt16.ofNat = some port ↔
      (∀ c ∈ digits, c.isDigit = true) ∧ digitsValue digits = port.toNat := by
    intro digits
    rw [Option.map_eq_some_iff]
    constructor
    · rintro ⟨n, hn, rfl⟩
      obtain ⟨hall, hvalue, hlt⟩ := (fold_digits_iff digits 0 n (by decide)).mp hn
      exact ⟨hall, hvalue.trans (UInt16.toNat_ofNat_of_lt' hlt).symm⟩
    · rintro ⟨hall, hvalue⟩
      exact ⟨port.toNat, (fold_digits_iff digits 0 _ (by decide)).mpr
        ⟨hall, hvalue, port.toNat_lt⟩, UInt16.ofNat_toNat⟩
  have hunsigned : ∀ digits : List Char, digits ≠ [] → (∀ c ∈ digits, c.isDigit = true) →
      digits.head? ≠ some '+' := by
    intro digits hne hall hplus
    have hdigit := hall '+' (List.mem_of_mem_head? hplus)
    revert hdigit
    decide
  constructor
  · intro h
    have hsome : ∀ digits : List Char,
        (if digits = [] then none else (digits.foldlM u16Digit 0).map UInt16.ofNat) = some port →
          digits ≠ [] ∧ (∀ c ∈ digits, c.isDigit = true) ∧ digitsValue digits = port.toNat := by
      intro digits hdigits
      by_cases hne : digits = []
      · rw [if_pos hne] at hdigits
        cases hdigits
      · rw [if_neg hne] at hdigits
        exact ⟨hne, (hread digits).mp hdigits⟩
    obtain ⟨hne, hall, hvalue⟩ := hsome _ h
    refine ⟨_, hne, ?_, hall, hvalue⟩
    by_cases hplus : s.head? = some '+'
    · rw [if_pos hplus]
      exact Or.inr (List.eq_cons_of_mem_head? hplus)
    · exact Or.inl (if_neg hplus).symm
  · rintro ⟨digits, hne, rfl | rfl, hall, hvalue⟩
    · simp only [u16FromStr, hunsigned s hne hall, if_false, hne]
      exact (hread s).mpr ⟨hall, hvalue⟩
    · simp only [u16FromStr, List.head?_cons, if_true, List.tail_cons, hne, if_false]
      exact (hread digits).mpr ⟨hall, hvalue⟩

/-! ## Parts -/

/-- A text is split at the first separator. -/
theorem split_once_cases (sep : Char) (s : List Char) :
    (splitOnce sep s = none ∧ sep ∉ s) ∨
      ∃ a b, splitOnce sep s = some (a, b) ∧ s = a ++ sep :: b ∧ sep ∉ a := by
  have hsplit := List.takeWhile_append_dropWhile (p := fun c => c != sep) (l := s)
  have hfirst : sep ∉ s.takeWhile fun c => c != sep := by
    intro hmem
    simpa using List.mem_takeWhile_imp hmem
  unfold splitOnce
  rw [List.span_eq_takeWhile_dropWhile]
  cases hrest : s.dropWhile fun c => c != sep with
  | nil =>
      rw [hrest, List.append_nil] at hsplit
      exact Or.inl ⟨rfl, hsplit ▸ hfirst⟩
  | cons c after =>
      have hnot := List.head_dropWhile_not (fun c => c != sep) (l := s) (by rw [hrest]; simp)
      simp only [hrest, List.head_cons, bne_eq_false_iff_eq] at hnot
      rw [hrest, hnot] at hsplit
      exact Or.inr ⟨_, after, rfl, hsplit.symm, hfirst⟩

theorem split_once_eq_some {sep : Char} {s a b : List Char} (h : s = a ++ sep :: b)
    (hfirst : sep ∉ a) : splitOnce sep s = some (a, b) := by
  rcases split_once_cases sep s with ⟨-, hnone⟩ | ⟨a', b', hsome, hsplit, hfirst'⟩
  · exact absurd (h ▸ List.mem_append_right _ List.mem_cons_self) hnone
  · obtain ⟨rfl, rfl⟩ := separated_left (h.symm.trans hsplit) hfirst hfirst'
    exact hsome

theorem split_once_eq_none {sep : Char} {s : List Char} (h : sep ∉ s) :
    splitOnce sep s = none := by
  rcases split_once_cases sep s with ⟨hnone, -⟩ | ⟨a, b, -, rfl, -⟩
  · exact hnone
  · exact absurd (List.mem_append_right _ List.mem_cons_self) h

/-- The range of ports that a part of the list names: a port, or two with a hyphen in between. -/
inductive PartNames (part : List Char) : UInt16 → UInt16 → Prop where
  | port (p : UInt16) (hone : '-' ∉ trim part) (hp : u16FromStr (trim part) = some p) :
      PartNames part p p
  | range (a b : List Char) (lo hi : UInt16) (hsplit : trim part = a ++ '-' :: b) (hfirst : '-' ∉ a)
      (hlo : u16FromStr (trim a) = some lo) (hhi : u16FromStr (trim b) = some hi) (hle : lo ≤ hi) :
      PartNames part lo hi

theorem mem_port_range {lo hi p : UInt16} : p ∈ portRange lo hi ↔ lo ≤ p ∧ p ≤ hi := by
  have hhi := hi.toNat_lt
  simp only [portRange, List.mem_map, List.mem_range'_1, UInt16.le_iff_toNat_le]
  constructor
  · rintro ⟨n, ⟨hlo, hn⟩, rfl⟩
    have hn' : n < UInt16.size := by
      have hsize : UInt16.size = 2 ^ 16 := rfl
      omega
    rw [UInt16.toNat_ofNat_of_lt' hn']
    omega
  · rintro ⟨hlo, hle⟩
    exact ⟨p.toNat, by omega, UInt16.ofNat_toNat⟩

theorem port_range_self (p : UInt16) : portRange p p = [p] := by
  rw [portRange, Nat.add_sub_cancel_left]
  exact congrArg (fun q => [q]) UInt16.ofNat_toNat

theorem read_port_ok {s shown : List Char} {p : UInt16} :
    readPort s shown = .ok p ↔ u16FromStr s = some p := by
  unfold readPort
  cases u16FromStr s <;> simp

theorem u16_from_str_ne_nil {s : List Char} {p : UInt16} (h : u16FromStr s = some p) : s ≠ [] := by
  rintro rfl
  cases h

/-- A part that names a range adds it. -/
theorem PartNames.ports {part : List Char} {lo hi : UInt16} (h : PartNames part lo hi) :
    portsOfPart part = .ok (portRange lo hi) := by
  cases h with
  | port _ hone hp =>
      simp only [portsOfPart, u16_from_str_ne_nil hp, if_false, split_once_eq_none hone,
        read_port_ok.mpr hp, port_range_self]
      rfl
  | range a b _ _ hsplit hfirst hlo hhi hle =>
      have hne : trim part ≠ [] := by rw [hsplit]; simp
      simp only [portsOfPart, hne, if_false, split_once_eq_some hsplit hfirst,
        read_port_ok.mpr hlo, read_port_ok.mpr hhi, UInt16.not_lt.mpr hle]

/-- A part that is accepted is blank or names a range. -/
theorem ports_of_part_cases {part : List Char} {ports : List UInt16}
    (h : portsOfPart part = .ok ports) :
    (trim part = [] ∧ ports = []) ∨ ∃ lo hi, PartNames part lo hi := by
  unfold portsOfPart at h
  dsimp only at h
  split at h
  · next hblank => exact Or.inl ⟨hblank, (Except.ok.inj h).symm⟩
  · refine Or.inr ?_
    rcases split_once_cases '-' (trim part) with ⟨hnone, hone⟩ | ⟨a, b, hsome, hsplit, hfirst⟩
    · rw [hnone] at h
      cases hread : readPort (trim part) (trim part) with
      | error e => rw [hread] at h; cases h
      | ok p => exact ⟨p, p, .port p hone (read_port_ok.mp hread)⟩
    · rw [hsome] at h
      dsimp only at h
      cases hlo : readPort (trim a) a with
      | error e => rw [hlo] at h; cases h
      | ok lo =>
          cases hhi : readPort (trim b) b with
          | error e => rw [hlo, hhi] at h; cases h
          | ok hi =>
              rw [hlo, hhi] at h
              dsimp only at h
              split at h
              · cases h
              · next hle =>
                  exact ⟨lo, hi, .range a b lo hi hsplit hfirst (read_port_ok.mp hlo)
                    (read_port_ok.mp hhi) (UInt16.not_lt.mp hle)⟩

/-- A part is blank or names a range. -/
def Accepted (part : List Char) : Prop := trim part = [] ∨ ∃ lo hi, PartNames part lo hi

theorem accepted_iff {part : List Char} :
    Accepted part ↔ ∃ ports, portsOfPart part = .ok ports := by
  constructor
  · rintro (hblank | ⟨lo, hi, hnames⟩)
    · exact ⟨[], by rw [portsOfPart, hblank, if_pos rfl]⟩
    · exact ⟨_, hnames.ports⟩
  · rintro ⟨ports, h⟩
    exact (ports_of_part_cases h).imp_left And.left

/-- The ports that a part adds are those that it names. -/
theorem mem_ports_of_part {part : List Char} {ports : List UInt16}
    (h : portsOfPart part = .ok ports) (p : UInt16) :
    p ∈ ports ↔ ∃ lo hi, PartNames part lo hi ∧ lo ≤ p ∧ p ≤ hi := by
  constructor
  · intro hp
    rcases ports_of_part_cases h with ⟨-, rfl⟩ | ⟨lo, hi, hnames⟩
    · cases hp
    · obtain rfl := Except.ok.inj (h.symm.trans hnames.ports)
      exact ⟨lo, hi, hnames, mem_port_range.mp hp⟩
  · rintro ⟨lo, hi, hnames, hle⟩
    obtain rfl := Except.ok.inj (h.symm.trans hnames.ports)
    exact mem_port_range.mpr hle

/-! ## Lists -/

/-- The parts of a list of ports. -/
def portParts (spec : String) : List (List Char) := spec.toList.splitOn ','

/-- The loop adds what every part adds, up to the first part that is not accepted. -/
theorem ports_of_parts_cases (out : List UInt16) (parts : List (List Char)) :
    (∃ ports, portsOfParts out parts = .ok ports ∧ (∀ part ∈ parts, Accepted part) ∧
        ∀ p, p ∈ ports ↔
          p ∈ out ∨ ∃ part ∈ parts, ∃ lo hi, PartNames part lo hi ∧ lo ≤ p ∧ p ≤ hi) ∨
      ∃ e before part after, portsOfParts out parts = .error e ∧ parts = before ++ part :: after ∧
        (∀ part ∈ before, Accepted part) ∧ portsOfPart part = .error e := by
  induction parts generalizing out with
  | nil => exact Or.inl ⟨out, rfl, by simp, by simp⟩
  | cons part parts ih =>
      rw [portsOfParts]
      cases hpart : portsOfPart part with
      | error e => exact Or.inr ⟨e, [], part, parts, rfl, rfl, by simp, hpart⟩
      | ok ps =>
          have hmem := mem_ports_of_part hpart
          have haccepted : Accepted part := accepted_iff.mpr ⟨ps, hpart⟩
          rcases ih (out ++ ps) with ⟨ports, hok, hall, hports⟩ |
            ⟨e, before, bad, after, herror, hparts, hbefore, hbad⟩
          · refine Or.inl ⟨ports, hok, List.forall_mem_cons.mpr ⟨haccepted, hall⟩, fun p => ?_⟩
            rw [hports, List.mem_append, hmem, List.exists_mem_cons_iff, or_assoc]
          · exact Or.inr ⟨e, part :: before, bad, after, herror, by rw [hparts]; rfl,
              List.forall_mem_cons.mpr ⟨haccepted, hbefore⟩, hbad⟩

private theorem destutter_sorted {l : List UInt16} {a : UInt16} (h : (a :: l).Pairwise (· ≤ ·)) :
    (l.destutter' (· ≠ ·) a).Pairwise (· < ·) ∧
      ∀ p, p ∈ l.destutter' (· ≠ ·) a ↔ p ∈ a :: l := by
  induction l generalizing a with
  | nil => simp
  | cons b l ih =>
      obtain ⟨ha, hl⟩ := List.pairwise_cons.mp h
      have hab : a ≤ b := ha b List.mem_cons_self
      rw [List.destutter'_cons]
      by_cases heq : a = b
      · subst heq
        obtain ⟨hsorted, hmem⟩ := ih hl
        rw [if_neg (fun hne => hne rfl)]
        refine ⟨hsorted, fun p => ?_⟩
        rw [hmem]
        simp
      · obtain ⟨hsorted, hmem⟩ := ih hl
        rw [if_pos heq]
        refine ⟨List.pairwise_cons.mpr ⟨fun p hp => ?_, hsorted⟩, fun p => ?_⟩
        · have hbp : b ≤ p := by
            rcases List.mem_cons.mp ((hmem p).mp hp) with rfl | hp'
            · exact UInt16.le_refl _
            · exact (List.pairwise_cons.mp hl).1 p hp'
          exact UInt16.lt_of_lt_of_le (UInt16.lt_of_le_of_ne hab heq) hbp
        · rw [List.mem_cons, hmem, ← List.mem_cons]

/-- Sorting and removing repetitions gives a strictly ascending list of the same ports. -/
theorem ascending (out : List UInt16) :
    ((out.insertionSort (· ≤ ·)).destutter (· ≠ ·)).Pairwise (· < ·) ∧
      ∀ p, p ∈ (out.insertionSort (· ≤ ·)).destutter (· ≠ ·) ↔ p ∈ out := by
  have hsorted := List.pairwise_insertionSort (· ≤ ·) out
  have hmem : ∀ p, p ∈ out.insertionSort (· ≤ ·) ↔ p ∈ out := fun p =>
    List.mem_insertionSort (· ≤ ·)
  cases hsort : out.insertionSort (· ≤ ·) with
  | nil =>
      rw [hsort] at hmem
      exact ⟨by simp, by simpa using hmem⟩
  | cons a l =>
      rw [hsort] at hsorted hmem
      obtain ⟨hstrict, hsame⟩ := destutter_sorted hsorted
      rw [List.destutter_cons']
      exact ⟨hstrict, fun p => (hsame p).trans (hmem p)⟩

/-- An ascending list stays as it is. -/
theorem ascending_of_pairwise {ports : List UInt16} (h : ports.Pairwise (· < ·)) :
    (ports.insertionSort (· ≤ ·)).destutter (· ≠ ·) = ports := by
  have hle : ports.Pairwise (· ≤ ·) := h.imp fun hlt => UInt16.le_of_lt hlt
  rw [hle.insertionSort_eq]
  exact List.destutter_of_isChain _ _ (h.imp fun hlt => UInt16.ne_of_lt hlt).isChain

/-! ## Printing -/

private theorem not_space_of_digit {c : Char} (h : c.isDigit = true) : isWhitespace c = false := by
  simp only [Char.isDigit, Bool.and_eq_true, decide_eq_true_eq, ge_iff_le, UInt32.le_iff_toNat_le]
    at h
  have hlo : 48 ≤ c.toNat := h.1
  have hhi : c.toNat ≤ 57 := h.2
  simp only [isWhitespace, Bool.or_eq_false_iff, Bool.and_eq_false_iff, decide_eq_false_iff_not,
    beq_eq_false_iff_ne]
  omega

private theorem trim_digits {digits : List Char} (h : ∀ c ∈ digits, c.isDigit = true) :
    trim digits = digits := by
  have hdrop : digits.dropWhile isWhitespace = digits := by
    rw [List.dropWhile_eq_self_iff]
    intro hlen
    rw [not_space_of_digit (h _ (List.getElem_mem hlen))]
    exact Bool.false_ne_true
  rw [trim, hdrop, List.rdropWhile_eq_self_iff]
  intro hne
  rw [not_space_of_digit (h _ (List.getLast_mem hne))]
  exact Bool.false_ne_true

/-- A printed port is read as the port. -/
theorem ports_of_printed (p : UInt16) : portsOfPart (toString p.toNat).toList = .ok [p] := by
  have htext : (toString p.toNat).toList = Nat.toDigits 10 p.toNat := Nat.toList_repr
  have hall : ∀ c ∈ Nat.toDigits 10 p.toNat, c.isDigit = true := fun c hc =>
    Nat.isDigit_of_mem_toDigits (by decide) (by decide) hc
  have hnames : PartNames (toString p.toNat).toList p p := by
    rw [htext]
    refine .port p ?_ ?_
    · rw [trim_digits hall]
      exact not_mem_digits (by decide) (by decide) (by decide) _
    · rw [trim_digits hall]
      exact (u16_from_str_iff _ _).mpr ⟨_, Nat.toDigits_ne_nil, Or.inl rfl, hall,
        Nat.ofDigitChars_ten_toDigits⟩
  rw [hnames.ports, port_range_self]

private theorem ports_of_all_printed (out ports : List UInt16) :
    portsOfParts out (ports.map fun p => (toString p.toNat).toList) = .ok (out ++ ports) := by
  induction ports generalizing out with
  | nil => rw [List.map_nil, portsOfParts, List.append_nil]
  | cons p ports ih =>
      rw [List.map_cons, portsOfParts, ports_of_printed]
      exact (ih (out ++ [p])).trans (by rw [List.append_assoc, List.singleton_append])

/-- The text of an ascending list is read as the list. -/
theorem parse_ports_fmt_ports {ports : List UInt16} (h : ports.Pairwise (· < ·)) :
    parsePorts (fmtPorts ports) = .ok ports := by
  have hread : portsOfParts [] ((fmtPorts ports).toList.splitOn ',') = .ok ports := by
    by_cases hne : ports = []
    · subst hne
      rfl
    · have hsep : ",".toList = [','] := rfl
      rw [fmtPorts, String.toList_intercalate, List.map_map, hsep, List.splitOn_intercalate]
      · exact ports_of_all_printed [] ports
      · intro part hpart
        obtain ⟨p, -, rfl⟩ := List.mem_map.mp hpart
        have htext : (toString p.toNat).toList = Nat.toDigits 10 p.toNat := Nat.toList_repr
        rw [Function.comp_apply, htext]
        exact not_mem_digits (by decide) (by decide) (by decide) _
      · simpa using hne
  rw [parsePorts, hread]
  exact congrArg Except.ok (ascending_of_pairwise h)

/-- The first part that is not accepted ends the loop. -/
theorem ports_of_parts_error {before after : List (List Char)} {part : List Char} {e : PortError}
    (hbefore : ∀ part ∈ before, Accepted part)
    (hpart : portsOfPart part = .error e) (out : List UInt16) :
    portsOfParts out (before ++ part :: after) = .error e := by
  induction before generalizing out with
  | nil => rw [List.nil_append, portsOfParts, hpart]
  | cons first before ih =>
      obtain ⟨haccepted, hrest⟩ := List.forall_mem_cons.mp hbefore
      obtain ⟨ps, hfirst⟩ := accepted_iff.mp haccepted
      rw [List.cons_append, portsOfParts, hfirst]
      exact ih hrest _

/-- A list of ports is accepted if every part is blank or names a range, and it is then the strictly
ascending list of the ports that the parts name. Otherwise the error is that of the first part that
is not accepted. What was accepted is read again from the text that the daemon prints. -/
theorem parse_ports_spec (spec : String) :
    (∀ ports, parsePorts spec = .ok ports ↔
      (∀ part ∈ portParts spec, Accepted part) ∧ ports.Pairwise (· < ·) ∧
        ∀ p, p ∈ ports ↔ ∃ part ∈ portParts spec, ∃ lo hi,
          PartNames part lo hi ∧ lo ≤ p ∧ p ≤ hi) ∧
    (∀ e, parsePorts spec = .error e ↔
      ∃ before part after, portParts spec = before ++ part :: after ∧
        (∀ part ∈ before, Accepted part) ∧ portsOfPart part = .error e) ∧
    ∀ ports, parsePorts spec = .ok ports → parsePorts (fmtPorts ports) = .ok ports := by
  have hparse : parsePorts spec = (portsOfParts [] (portParts spec)).map fun out =>
      (out.insertionSort (· ≤ ·)).destutter (· ≠ ·) := rfl
  have hagain : ∀ ports, parsePorts spec = .ok ports → ports.Pairwise (· < ·) := by
    intro ports h
    rw [hparse] at h
    cases hout : portsOfParts [] (portParts spec) with
    | error e => rw [hout] at h; cases h
    | ok out =>
        rw [hout] at h
        rw [← Except.ok.inj h]
        exact (ascending out).1
  refine ⟨fun ports => ?_, fun e => ?_, fun ports h => parse_ports_fmt_ports (hagain ports h)⟩
  · rcases ports_of_parts_cases [] (portParts spec) with ⟨out, hout, hall, hmem⟩ |
      ⟨e, before, part, after, hout, hparts, -, hpart⟩
    · obtain ⟨hstrict, hsame⟩ := ascending out
      rw [hparse, hout]
      constructor
      · intro h
        rw [← Except.ok.inj h]
        refine ⟨hall, hstrict, fun p => ?_⟩
        rw [hsame, hmem]
        simp only [List.not_mem_nil, false_or]
      · rintro ⟨-, hports, hnamed⟩
        refine congrArg Except.ok (List.Pairwise.eq_of_mem_iff hstrict hports fun p => ?_)
        rw [hsame, hmem, hnamed]
        simp only [List.not_mem_nil, false_or]
    · rw [hparse, hout]
      constructor
      · rintro ⟨⟩
      · rintro ⟨hall, -⟩
        obtain ⟨ps, hok⟩ := accepted_iff.mp (hall part (by rw [hparts]; simp))
        rw [hpart] at hok
        cases hok
  · constructor
    · intro h
      rcases ports_of_parts_cases [] (portParts spec) with ⟨out, hout, -⟩ |
        ⟨e', before, part, after, hout, hparts, hbefore, hpart⟩
      · rw [hparse, hout] at h
        cases h
      · rw [hparse, hout] at h
        obtain rfl : e' = e := Except.error.inj h
        exact ⟨before, part, after, hparts, hbefore, hpart⟩
    · rintro ⟨before, part, after, hparts, hbefore, hpart⟩
      rw [hparse, hparts, ports_of_parts_error hbefore hpart]
      rfl

end H2Tap
