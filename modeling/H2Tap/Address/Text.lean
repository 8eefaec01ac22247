import H2Tap.Lib.Separated
import H2Tap.Address

/-!
# The text of an address names it

The snapshot and the JSON lines name an endpoint by its text, and the rebuilder finds the seed of a
direction by the texts of its endpoints. No two addresses have the same text (`text_inj`), although
the text of an IPv6 address leaves out a run of zeros, and a connection's two texts can be told from
the hyphen between them (`conn_text_inj`).
-/

namespace H2Tap

open Lib

/-! ## Version 4 -/

private theorem repr_free {c : Char} (hc : ∀ d < 16, c ≠ Nat.digitChar d) (n : Nat) :
    c ∉ (toString n).toList := by
  rw [show toString n = Nat.repr n from rfl, Nat.toList_repr]
  exact not_mem_digits (by decide) (by decide) hc n

/-- The text of an IPv4 address has no character but digits and dots. -/
theorem ipv4_text_free {c : Char} (hc : ∀ d < 16, c ≠ Nat.digitChar d) (hdot : c ≠ '.')
    (octets : Bytes) : c ∉ (ipv4Text octets).toList := by
  refine not_mem_intercalate (by simpa using hdot) fun s hs => ?_
  obtain ⟨b, -, rfl⟩ := List.mem_map.mp hs
  exact repr_free hc _

/-- Octets are known from their text. -/
theorem ipv4_text_inj {a b : Bytes} (hlength : a.length = b.length)
    (h : ipv4Text a = ipv4Text b) : a = b := by
  cases a with
  | nil => exact (List.length_eq_zero_iff.mp hlength.symm).symm
  | cons x a =>
      have hfree : ∀ octets : Bytes, ∀ s ∈ octets.map fun b => toString b.toNat,
          '.' ∉ s.toList := by
        intro octets s hs
        obtain ⟨b, -, rfl⟩ := List.mem_map.mp hs
        exact repr_free (by decide) _
      have hne : b ≠ [] := by
        rintro rfl
        cases hlength
      have hparts := intercalate_inj (c := '.') rfl h (hfree _) (hfree _) (by simp)
        (by simpa using hne)
      refine List.map_injective_iff.mpr ?_ hparts
      intro c d hcd
      exact UInt8.toNat_inj.mp (Nat.repr_injective hcd)

/-! ## Version 6 -/

/-- A run of zero groups is one of the groups that it was found in. -/
def ZeroSpan.In (z : ZeroSpan) (segments : List Nat) : Prop :=
  ∀ i < z.len, segments[z.start + i]? = some 0

/-- The run that is found is one of zeros. -/
theorem longest_zeros_in {segments done rest : List Nat} {i : Nat} {longest current : ZeroSpan}
    (hsegments : segments = done ++ rest) (hi : done.length = i) (hlongest : longest.In segments)
    (hcurrent : current.In segments) (hend : current.len ≠ 0 → current.start + current.len = i) :
    (longestZeros i longest current rest).In segments := by
  induction rest generalizing done i longest current with
  | nil => exact hlongest
  | cons segment rest ih =>
      have hsplit : segments = done ++ [segment] ++ rest := by
        rw [hsegments, List.append_assoc, List.singleton_append]
      have hlength : (done ++ [segment]).length = i + 1 := by
        rw [List.length_append, hi, List.length_singleton]
      rw [longestZeros]
      split
      · next hzero =>
          have hhere : segments[i]? = some 0 := by
            rw [hsegments, ← hi, List.getElem?_append_right le_rfl, Nat.sub_self, hzero]
            rfl
          have hlonger : ZeroSpan.In ⟨if current.len = 0 then i else current.start,
              current.len + 1⟩ segments := by
            intro n hn
            simp only at hn ⊢
            split
            · next hnone =>
                obtain rfl : n = 0 := by omega
                exact hhere
            · next hsome =>
                rcases Nat.lt_or_ge n current.len with hlt | hge
                · exact hcurrent n hlt
                · have hlast : current.start + n = i := by
                    have hstart := hend hsome
                    omega
                  rw [hlast]
                  exact hhere
          have hreach : (if current.len = 0 then i else current.start) + (current.len + 1) =
              i + 1 := by
            split
            · omega
            · next hsome =>
                have hstart := hend hsome
                omega
          refine ih hsplit hlength ?_ hlonger fun _ => hreach
          by_cases hlong : current.len + 1 > longest.len
          · exact (if_pos hlong).symm ▸ hlonger
          · exact (if_neg hlong).symm ▸ hlongest
      · exact ih hsplit hlength hlongest (fun n hn => absurd hn (Nat.not_lt_zero n))
          fun hne => absurd rfl hne

/-- Groups around a run of zeros. -/
theorem ZeroSpan.In.split {z : ZeroSpan} {segments : List Nat} (h : z.In segments) :
    segments = segments.take z.start ++ List.replicate z.len 0 ++
      segments.drop (z.start + z.len) := by
  have hzeros : (segments.drop z.start).take z.len = List.replicate z.len 0 := by
    refine List.ext_getElem? fun i => ?_
    rw [List.getElem?_take, List.getElem?_drop, List.getElem?_replicate]
    split
    · next hi => exact h i hi
    · rfl
  rw [← hzeros, List.append_assoc, ← List.drop_drop, List.take_append_drop,
    List.take_append_drop]

/-- A group in hexadecimal. -/
def groupText (n : Nat) : String := String.ofList (Nat.toDigits 16 n)

theorem group_text_free {c : Char} (hc : ∀ d < 16, c ≠ Nat.digitChar d) (n : Nat) :
    c ∉ (groupText n).toList := by
  rw [groupText, String.toList_ofList]
  exact not_mem_digits (by decide) le_rfl hc n

theorem group_text_inj : Function.Injective groupText := by
  intro m n h
  have hdigits := congrArg String.toList h
  rw [groupText, groupText, String.toList_ofList, String.toList_ofList] at hdigits
  exact to_digits_inj (by decide) le_rfl hdigits

theorem group_text_ne_empty (n : Nat) : groupText n ≠ "" := by
  intro h
  have hdigits := congrArg String.toList h
  rw [groupText, String.toList_ofList] at hdigits
  exact Nat.toDigits_ne_nil hdigits

/-- The parts of a text between colons that name some groups: one a group, or an empty part for a
run of zeros. Nothing beside that run is an empty part as well. -/
inductive Names : List String → List Nat → Prop where
  | all (segments : List Nat) (hne : segments ≠ []) : Names (segments.map groupText) segments
  | around (left right : List Nat) (len : Nat) (parts before after : List String)
      (hleft : parts = left.map groupText ++ "" :: after)
      (hright : parts = before ++ "" :: right.map groupText) :
      Names parts (left ++ List.replicate len 0 ++ right)

private theorem empty_not_group (segments : List Nat) : "" ∉ segments.map groupText := by
  intro h
  obtain ⟨n, -, heq⟩ := List.mem_map.mp h
  exact group_text_ne_empty n heq

/-- Parts name one list of a length only. -/
theorem Names.unique {parts : List String} {a b : List Nat} (ha : Names parts a)
    (hb : Names parts b) (hlength : a.length = b.length) : a = b := by
  have hinj := List.map_injective_iff.mpr group_text_inj
  generalize hparts : parts = parts' at hb
  cases ha with
  | all a hne =>
      cases hb with
      | all b hne' => exact hinj hparts
      | around left right len _ before after hleft hright =>
          refine absurd ?_ (empty_not_group a)
          rw [hparts, hleft]
          exact List.mem_append_right _ List.mem_cons_self
  | around left right len _ before after hleft hright =>
      cases hb with
      | all b hne' =>
          refine absurd ?_ (empty_not_group b)
          rw [← hparts, hleft]
          exact List.mem_append_right _ List.mem_cons_self
      | around left' right' len' _ before' after' hleft' hright' =>
          obtain ⟨heq, -⟩ := separated_left (hleft.symm.trans (hparts.trans hleft'))
            (empty_not_group left) (empty_not_group left')
          obtain ⟨-, heq'⟩ := separated_right (hright.symm.trans (hparts.trans hright'))
            (empty_not_group right) (empty_not_group right')
          obtain rfl := hinj heq
          obtain rfl := hinj heq'
          simp only [List.length_append, List.length_replicate] at hlength
          obtain rfl : len = len' := by omega
          rfl

/-- Groups as parts; an empty part if there are none. -/
private def shown (segments : List Nat) : List String :=
  if segments = [] then [""] else segments.map groupText

private theorem segments_text_shown (segments : List Nat) :
    segmentsText segments = ":".intercalate (shown segments) := by
  unfold shown
  split
  · next h =>
      rw [h, String.intercalate_singleton]
      rfl
  · rfl

private theorem shown_ne_nil (segments : List Nat) : shown segments ≠ [] := by
  unfold shown
  split
  · exact List.cons_ne_nil _ _
  · next h => simpa using h

private theorem mem_shown {segments : List Nat} {s : String} (h : s ∈ shown segments) :
    s = "" ∨ ∃ n, s = groupText n := by
  unfold shown at h
  split at h
  · exact Or.inl (List.mem_singleton.mp h)
  · obtain ⟨n, -, rfl⟩ := List.mem_map.mp h
    exact Or.inr ⟨n, rfl⟩

private theorem shown_left (segments : List Nat) (rest : List String) :
    ∃ after, shown segments ++ "" :: rest = segments.map groupText ++ "" :: after := by
  unfold shown
  split
  · next h => exact ⟨"" :: rest, by rw [h]; rfl⟩
  · exact ⟨rest, rfl⟩

private theorem shown_right (segments : List Nat) (rest : List String) :
    ∃ before, rest ++ "" :: shown segments = before ++ "" :: segments.map groupText := by
  unfold shown
  split
  · next h => exact ⟨rest ++ [""], by rw [h]; simp⟩
  · exact ⟨rest, rfl⟩

/-- The text of an IPv6 address is that of parts which name its groups, unless it ends in a dotted
address. -/
theorem ipv6_text_parts (octets : Bytes) (hne : ipv6Segments octets ≠ [])
    (hplain : octets.take 12 ≠ List.replicate 10 0 ++ [0xff, 0xff]) :
    ∃ parts, ipv6Text octets = ":".intercalate parts ∧ Names parts (ipv6Segments octets) ∧
      parts ≠ [] ∧ ∀ s ∈ parts, s = "" ∨ ∃ n, s = groupText n := by
  unfold ipv6Text
  rw [if_neg hplain]
  generalize ipv6Segments octets = segments at hne
  dsimp only
  split
  · have hin : (longestZeros 0 ⟨0, 0⟩ ⟨0, 0⟩ segments).In segments :=
      longest_zeros_in (List.nil_append segments).symm rfl
        (fun i hi => absurd hi (Nat.not_lt_zero i)) (fun i hi => absurd hi (Nat.not_lt_zero i))
        fun hne => absurd rfl hne
    generalize longestZeros 0 ⟨0, 0⟩ ⟨0, 0⟩ segments = z at hin
    have hsplit := hin.split
    obtain ⟨after, hleft⟩ := shown_left (segments.take z.start)
      (shown (segments.drop (z.start + z.len)))
    obtain ⟨before, hright⟩ := shown_right (segments.drop (z.start + z.len))
      (shown (segments.take z.start))
    refine ⟨shown (segments.take z.start) ++ "" :: shown (segments.drop (z.start + z.len)),
      ?_, ?_, by simp, ?_⟩
    · rw [segments_text_shown, segments_text_shown,
        String.intercalate_append_of_ne_nil (shown_ne_nil _) (List.cons_ne_nil _ _),
        String.intercalate_cons_of_ne_nil (shown_ne_nil _)]
      have hcolons : "::" = ":" ++ ":" := rfl
      simp only [hcolons, String.append_assoc, String.empty_append]
    · have hnames := Names.around _ _ z.len _ before after hleft hright
      rwa [← hsplit] at hnames
    · intro s hs
      rcases List.mem_append.mp hs with hmem | hmem
      · exact mem_shown hmem
      · rcases List.mem_cons.mp hmem with rfl | hmem
        · exact Or.inl rfl
        · exact mem_shown hmem
  · refine ⟨segments.map groupText, rfl, .all segments hne, by simpa using hne, ?_⟩
    intro s hs
    obtain ⟨n, -, rfl⟩ := List.mem_map.mp hs
    exact Or.inr ⟨n, rfl⟩

private theorem two_bytes {a : Bytes} {n : Nat} (h : a.length = 2 * (n + 1)) :
    ∃ hi lo rest, a = hi :: lo :: rest ∧ rest.length = 2 * n := by
  cases a with
  | nil => cases h
  | cons hi a =>
      cases a with
      | nil =>
          simp only [List.length_singleton] at h
          omega
      | cons lo rest =>
          simp only [List.length_cons] at h
          exact ⟨hi, lo, rest, rfl, by omega⟩

/-- Bytes are known from their 16-bit groups. -/
theorem ipv6_segments_inj {a b : Bytes} {n : Nat} (ha : a.length = 2 * n) (hb : b.length = 2 * n)
    (h : ipv6Segments a = ipv6Segments b) : a = b := by
  induction n generalizing a b with
  | zero => rw [List.length_eq_zero_iff.mp ha, List.length_eq_zero_iff.mp hb]
  | succ n ih =>
      obtain ⟨hi, lo, a, rfl, hrest⟩ := two_bytes ha
      obtain ⟨hi', lo', b, rfl, hrest'⟩ := two_bytes hb
      rw [ipv6Segments, ipv6Segments] at h
      obtain ⟨hhead, htail⟩ := List.cons.inj h
      have hpair : [hi, lo] = [hi', lo'] := from_be_bytes_inj rfl hhead
      rw [ih hrest hrest' htail]
      simpa using hpair

private theorem ipv6_segments_length {a : Bytes} {n : Nat} (ha : a.length = 2 * n) :
    (ipv6Segments a).length = n := by
  induction n generalizing a with
  | zero => rw [List.length_eq_zero_iff.mp ha]; rfl
  | succ n ih =>
      obtain ⟨hi, lo, a, rfl, hrest⟩ := two_bytes ha
      rw [ipv6Segments, List.length_cons, ih hrest]

/-- The dotted form of an address of version 4 in one of version 6. -/
private theorem dot_mem_of_mapped {octets : Octets 16} :
    '.' ∈ ("::ffff:" ++ ipv4Text (octets.val.drop 12)).toList := by
  have hlength : (octets.val.drop 12).length = 2 * (1 + 1) := by
    rw [List.length_drop, octets.property]
  obtain ⟨b, b', rest, hdrop, -⟩ := two_bytes hlength
  rw [hdrop, ipv4Text, List.map_cons, List.map_cons, String.intercalate_cons_cons]
  simp

private theorem dot_not_mem_parts {parts : List String}
    (hparts : ∀ s ∈ parts, s = "" ∨ ∃ n, s = groupText n) :
    '.' ∉ (":".intercalate parts).toList := by
  refine not_mem_intercalate (by decide) fun s hs => ?_
  rcases hparts s hs with rfl | ⟨n, rfl⟩
  · exact List.not_mem_nil
  · exact group_text_free (by decide) n

/-- Addresses of version 6 are known from their text. -/
theorem ipv6_text_inj {a b : Octets 16} (h : ipv6Text a.val = ipv6Text b.val) : a = b := by
  have hne : ∀ octets : Octets 16, ipv6Segments octets.val ≠ [] := by
    intro octets hnil
    have hlength := ipv6_segments_length (n := 8) octets.property
    rw [hnil] at hlength
    cases hlength
  refine Subtype.ext ?_
  by_cases ha : a.val.take 12 = List.replicate 10 0 ++ [0xff, 0xff]
  · have htext : ipv6Text a.val = "::ffff:" ++ ipv4Text (a.val.drop 12) := if_pos ha
    by_cases hb : b.val.take 12 = List.replicate 10 0 ++ [0xff, 0xff]
    · have htext' : ipv6Text b.val = "::ffff:" ++ ipv4Text (b.val.drop 12) := if_pos hb
      rw [htext, htext'] at h
      have hdrop := ipv4_text_inj (by simp [a.property, b.property])
        ((String.append_right_inj _).mp h)
      rw [← List.take_append_drop 12 a.val, ha, hdrop, ← hb, List.take_append_drop]
    · obtain ⟨parts, hparts, -, -, hfree⟩ := ipv6_text_parts b.val (hne b) hb
      rw [htext, hparts] at h
      exact absurd (h ▸ dot_mem_of_mapped) (dot_not_mem_parts hfree)
  · obtain ⟨parts, hparts, hnames, hsome, hfree⟩ := ipv6_text_parts a.val (hne a) ha
    by_cases hb : b.val.take 12 = List.replicate 10 0 ++ [0xff, 0xff]
    · have htext' : ipv6Text b.val = "::ffff:" ++ ipv4Text (b.val.drop 12) := if_pos hb
      rw [htext', hparts] at h
      exact absurd (h ▸ dot_mem_of_mapped) (dot_not_mem_parts hfree)
    · obtain ⟨parts', hparts', hnames', hsome', hfree'⟩ := ipv6_text_parts b.val (hne b) hb
      rw [hparts, hparts'] at h
      have hcolon : ∀ parts : List String, (∀ s ∈ parts, s = "" ∨ ∃ n, s = groupText n) →
          ∀ s ∈ parts, ':' ∉ s.toList := by
        intro parts hfree s hs
        rcases hfree s hs with rfl | ⟨n, rfl⟩
        · exact List.not_mem_nil
        · exact group_text_free (by decide) n
      have heq := intercalate_inj (c := ':') rfl h (hcolon _ hfree) (hcolon _ hfree') hsome hsome'
      rw [← heq] at hnames'
      refine ipv6_segments_inj (n := 8) a.property b.property (hnames.unique hnames' ?_)
      rw [ipv6_segments_length (n := 8) a.property, ipv6_segments_length (n := 8) b.property]

/-- The text of an IPv6 address has no character but hexadecimal digits, colons and dots. -/
theorem ipv6_text_free {c : Char} (hc : ∀ d < 16, c ≠ Nat.digitChar d) (hcolon : c ≠ ':')
    (hdot : c ≠ '.') (octets : Octets 16) : c ∉ (ipv6Text octets.val).toList := by
  by_cases hmapped : octets.val.take 12 = List.replicate 10 0 ++ [0xff, 0xff]
  · have htext : ipv6Text octets.val = "::ffff:" ++ ipv4Text (octets.val.drop 12) := if_pos hmapped
    have hf : c ≠ 'f' := hc 15 (by decide)
    rw [htext, String.toList_append, List.mem_append]
    rintro (hmem | hmem)
    · have hpre : "::ffff:".toList = [':', ':', 'f', 'f', 'f', 'f', ':'] := rfl
      rw [hpre] at hmem
      simp only [List.mem_cons, List.not_mem_nil, or_false] at hmem
      tauto
    · exact ipv4_text_free hc hdot _ hmem
  · have hne : ipv6Segments octets.val ≠ [] := by
      intro hnil
      have hlength := ipv6_segments_length (n := 8) octets.property
      rw [hnil] at hlength
      cases hlength
    obtain ⟨parts, hparts, -, -, hfree⟩ := ipv6_text_parts octets.val hne hmapped
    rw [hparts]
    refine not_mem_intercalate (by simpa using hcolon) fun s hs => ?_
    rcases hfree s hs with rfl | ⟨n, rfl⟩
    · exact List.not_mem_nil
    · exact group_text_free hc n

/-! ## Endpoints -/

namespace SocketAddr

/-- The text of an endpoint has no other characters than these. -/
theorem text_free {c : Char} (hc : ∀ d < 16, c ≠ Nat.digitChar d) (hcolon : c ≠ ':')
    (hdot : c ≠ '.') (hopen : c ≠ '[') (hclose : c ≠ ']') (a : SocketAddr) :
    c ∉ a.text.toList := by
  obtain ⟨ip, port⟩ := a
  cases ip with
  | v4 octets =>
      simp only [text, String.toList_append, List.mem_append, not_or]
      exact ⟨⟨ipv4_text_free hc hdot _, by simpa using hcolon⟩, repr_free hc _⟩
  | v6 octets =>
      simp only [text, String.toList_append, List.mem_append, not_or]
      exact ⟨⟨⟨by simpa using hopen, ipv6_text_free hc hcolon hdot _⟩,
        by simpa using ⟨hclose, hcolon⟩⟩, repr_free hc _⟩

/-- No two endpoints have the same text. -/
theorem text_inj {a b : SocketAddr} (h : a.text = b.text) : a = b := by
  have hport : ∀ p q : UInt16, Nat.toDigits 10 p.toNat = Nat.toDigits 10 q.toNat → p = q :=
    fun p q heq => UInt16.toNat_inj.mp (to_digits_inj (by decide) (by decide) heq)
  have hopen : ∀ (octets : Octets 4) (port : UInt16), '[' ∉ (text ⟨.v4 octets, port⟩).toList := by
    intro octets port
    simp only [text, String.toList_append, List.mem_append, not_or]
    exact ⟨⟨ipv4_text_free (by decide) (by decide) _, by decide⟩, repr_free (by decide) _⟩
  have hbracket : ∀ (octets : Octets 16) (port : UInt16),
      '[' ∈ (text ⟨.v6 octets, port⟩).toList := by
    intro octets port
    simp [text]
  obtain ⟨ip, port⟩ := a
  obtain ⟨ip', port'⟩ := b
  cases ip with
  | v4 octets =>
      cases ip' with
      | v4 octets' =>
          have hchars := congrArg String.toList h
          simp only [text, String.toList_append] at hchars
          obtain ⟨hip, hp⟩ := separated_left (by simpa using hchars)
            (ipv4_text_free (c := ':') (by decide) (by decide) octets.val)
            (ipv4_text_free (by decide) (by decide) octets'.val)
          rw [Subtype.ext (ipv4_text_inj (octets.property.trans octets'.property.symm)
            (String.toList_injective hip)), hport port port' hp]
      | v6 octets' => exact absurd (h ▸ hbracket octets' port') (hopen octets port)
  | v6 octets =>
      cases ip' with
      | v4 octets' => exact absurd (h ▸ hbracket octets port) (hopen octets' port')
      | v6 octets' =>
          have hchars := congrArg String.toList h
          simp only [text, String.toList_append] at hchars
          obtain ⟨hip, hp⟩ := separated_left (by simpa using hchars)
            (ipv6_text_free (c := ']') (by decide) (by decide) (by decide) octets)
            (ipv6_text_free (by decide) (by decide) (by decide) octets')
          rw [ipv6_text_inj (String.toList_injective hip),
            hport port port' (List.cons.inj hp).2]

/-- A connection is known from the text of its endpoints with a hyphen in between. -/
theorem conn_text_inj {a b c d : SocketAddr}
    (h : a.text ++ "-" ++ b.text = c.text ++ "-" ++ d.text) : a = c ∧ b = d := by
  have hchars := congrArg String.toList h
  simp only [String.toList_append] at hchars
  obtain ⟨hleft, hright⟩ := separated_left (by simpa using hchars)
    (text_free (c := '-') (by decide) (by decide) (by decide) (by decide) (by decide) a)
    (text_free (by decide) (by decide) (by decide) (by decide) (by decide) c)
  exact ⟨text_inj (String.toList_injective hleft), text_inj (String.toList_injective hright)⟩

end SocketAddr

end H2Tap
