import Mathlib

/-!
# Separators and digits

What text can be read back. A separator tells two texts apart that it does not occur in
(`separated_left`, `separated_right`), parts are known from their text with a separator in between
(`intercalate_inj`), and a number from its digits (`to_digits_inj`).
-/

namespace H2Tap.Lib

section

variable {α : Type*} {sep : α} {a a' b b' : List α}

/-- What stands before the first separator, and what stands after it. -/
theorem separated_left (h : a ++ sep :: b = a' ++ sep :: b') (ha : sep ∉ a) (ha' : sep ∉ a') :
    a = a' ∧ b = b' := by
  induction a generalizing a' with
  | nil =>
      cases a' with
      | nil => exact ⟨rfl, (List.cons.inj h).2⟩
      | cons c a' =>
          have hhead : sep = c := (List.cons.inj h).1
          exact absurd (hhead ▸ List.mem_cons_self) ha'
  | cons c a ih =>
      cases a' with
      | nil =>
          have hhead : c = sep := (List.cons.inj h).1
          exact absurd (hhead ▸ List.mem_cons_self) ha
      | cons c' a' =>
          obtain ⟨rfl, htail⟩ := List.cons.inj h
          obtain ⟨rfl, rfl⟩ := ih htail (fun hmem => ha (List.mem_cons_of_mem _ hmem))
            (fun hmem => ha' (List.mem_cons_of_mem _ hmem))
          exact ⟨rfl, rfl⟩

/-- What stands after the last separator, and what stands before it. -/
theorem separated_right (h : a ++ sep :: b = a' ++ sep :: b') (hb : sep ∉ b) (hb' : sep ∉ b') :
    a = a' ∧ b = b' := by
  have hreverse : b.reverse ++ sep :: a.reverse = b'.reverse ++ sep :: a'.reverse := by
    simpa using congrArg List.reverse h
  obtain ⟨hright, hleft⟩ := separated_left hreverse (by simpa using hb) (by simpa using hb')
  exact ⟨List.reverse_injective hleft, List.reverse_injective hright⟩

end

/-- Parts without the separator are known from their text. -/
theorem intercalate_inj {sep : String} {c : Char} (hsep : sep.toList = [c]) {l l' : List String}
    (h : sep.intercalate l = sep.intercalate l') (hl : ∀ s ∈ l, c ∉ s.toList)
    (hl' : ∀ s ∈ l', c ∉ s.toList) (hne : l ≠ []) (hne' : l' ≠ []) : l = l' := by
  have hsplit : ∀ l : List String, (∀ s ∈ l, c ∉ s.toList) → l ≠ [] →
      (sep.intercalate l).toList.splitOn c = l.map String.toList := by
    intro l hl hne
    rw [String.toList_intercalate, hsep]
    refine List.splitOn_intercalate c ?_ (by simpa using hne)
    intro chars hchars
    obtain ⟨s, hs, rfl⟩ := List.mem_map.mp hchars
    exact hl s hs
  have hparts := hsplit l hl hne
  rw [h, hsplit l' hl' hne'] at hparts
  exact (List.map_injective_iff.mpr fun _ _ heq => String.toList_injective heq) hparts.symm

/-- A character that is in no part and not in the separator is not in the text. -/
theorem not_mem_intercalate {sep : String} {c : Char} (hsep : c ∉ sep.toList) {l : List String}
    (hl : ∀ s ∈ l, c ∉ s.toList) : c ∉ (sep.intercalate l).toList := by
  induction l with
  | nil => simp
  | cons s l ih =>
      have hrest := ih fun s' hs' => hl s' (List.mem_cons_of_mem _ hs')
      by_cases hne : l = []
      · rw [hne, String.intercalate_singleton]
        exact hl s List.mem_cons_self
      · rw [String.intercalate_cons_of_ne_nil hne, String.toList_append, String.toList_append,
          List.mem_append, List.mem_append]
        rintro ((hmem | hmem) | hmem)
        · exact hl s List.mem_cons_self hmem
        · exact hsep hmem
        · exact hrest hmem

/-! ## Digits -/

/-- Digits up to hexadecimal ones are different. -/
theorem digit_char_inj {m n : Nat} (hm : m < 16) (hn : n < 16) (h : m.digitChar = n.digitChar) :
    m = n := by
  have hall : ∀ m n : Fin 16, Nat.digitChar m = Nat.digitChar n → m = n := by decide
  exact congrArg Fin.val (hall ⟨m, hm⟩ ⟨n, hn⟩ h)

/-- A number is known from its digits. -/
theorem to_digits_inj {b : Nat} (hb : 1 < b) (hle : b ≤ 16) {m n : Nat}
    (h : Nat.toDigits b m = Nat.toDigits b n) : m = n := by
  induction m using Nat.strongRecOn generalizing n with
  | ind m ih =>
      rw [Nat.toDigits_eq_if hb, Nat.toDigits_eq_if (n := n) hb] at h
      split at h <;> split at h
      · next hm hn =>
          exact digit_char_inj (hm.trans_le hle) (hn.trans_le hle) (List.cons.inj h).1
      · next hm hn =>
          have hlength := congrArg List.length h
          have hlong := Nat.length_toDigits_pos (b := b) (n := n / b)
          rw [List.length_append, List.length_singleton, List.length_singleton] at hlength
          omega
      · next hm hn =>
          have hlength := congrArg List.length h
          have hlong := Nat.length_toDigits_pos (b := b) (n := m / b)
          rw [List.length_append, List.length_singleton, List.length_singleton] at hlength
          omega
      · next hm hn =>
          obtain ⟨hhigh, hlow⟩ := List.append_inj' h rfl
          have hdiv : m / b = n / b := ih (m / b) (Nat.div_lt_self (by omega) hb) hhigh
          have hmod : m % b = n % b := digit_char_inj ((Nat.mod_lt m (by omega)).trans_le hle)
            ((Nat.mod_lt n (by omega)).trans_le hle) (List.cons.inj hlow).1
          rw [← Nat.div_add_mod m b, ← Nat.div_add_mod n b, hdiv, hmod]

/-- What digits are. -/
theorem digit_of_mem {b : Nat} (hb : 1 < b) {n : Nat} {c : Char} (h : c ∈ Nat.toDigits b n) :
    ∃ d < b, c = Nat.digitChar d := by
  induction n using Nat.strongRecOn with
  | ind n ih =>
      rw [Nat.toDigits_eq_if hb] at h
      split at h
      · next hn => exact ⟨n, hn, List.mem_singleton.mp h⟩
      · next hn =>
          rcases List.mem_append.mp h with hhigh | hlow
          · exact ih (n / b) (Nat.div_lt_self (by omega) hb) hhigh
          · exact ⟨n % b, Nat.mod_lt n (by omega), List.mem_singleton.mp hlow⟩

/-- No digit up to the hexadecimal ones is a character that none of the sixteen is. -/
theorem not_mem_digits {b : Nat} (hb : 1 < b) (hle : b ≤ 16) {c : Char}
    (hc : ∀ d < 16, c ≠ Nat.digitChar d) (n : Nat) : c ∉ Nat.toDigits b n := by
  intro h
  obtain ⟨d, hd, heq⟩ := digit_of_mem hb h
  exact hc d (hd.trans_le hle) heq

end H2Tap.Lib
