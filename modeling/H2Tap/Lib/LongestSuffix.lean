import Mathlib

/-!
# Longest suffixes

A queue that drops old elements from its front until what is left is admissible holds the longest
admissible suffix of everything that was put in. `IsLongestSuffix` says so of a list;
`IsLongestSuffix.concat` is the step for one more element.
-/

namespace H2Tap.Lib

variable {α : Type*}

/-- `s` is the longest suffix of `l` that satisfies `P`. -/
structure IsLongestSuffix (P : List α → Prop) (s l : List α) : Prop where
  suffix : s <:+ l
  holds : P s
  longest : ∀ t, t <:+ l → P t → t <:+ s

/-- Dropping the front one by one, first for one condition and then for another, if the first one
stays true. -/
theorem IsLongestSuffix.trans {P Q : List α → Prop} {s t l : List α}
    (hP : ∀ {a b : List α}, a <:+ b → P b → P a) (hs : IsLongestSuffix P s l)
    (ht : IsLongestSuffix Q t s) : IsLongestSuffix (fun a => P a ∧ Q a) t l where
  suffix := ht.suffix.trans hs.suffix
  holds := ⟨hP ht.suffix hs.holds, ht.holds⟩
  longest a ha hPQ := ht.longest a (hs.longest a ha hPQ.1) hPQ.2

/-- One more element: what was dropped before is not missed. -/
theorem IsLongestSuffix.concat {P Q : List α → Prop} {s t l : List α} {x : α}
    (hPQ : ∀ a, Q (a ++ [x]) → P a) (hs : IsLongestSuffix P s l)
    (ht : IsLongestSuffix Q t (s ++ [x])) : IsLongestSuffix Q t (l ++ [x]) where
  suffix := by
    obtain ⟨front, rfl⟩ := hs.suffix
    rw [List.append_assoc]
    exact ht.suffix.trans (List.suffix_append _ _)
  holds := ht.holds
  longest a ha hQ := by
    refine ht.longest a ?_ hQ
    obtain rfl | ⟨a, y, rfl⟩ := List.eq_nil_or_concat' a
    · exact List.nil_suffix
    · obtain ⟨front, hfront⟩ := ha
      rw [← List.append_assoc] at hfront
      obtain ⟨hinit, hlast⟩ := List.append_inj' hfront rfl
      cases hlast
      obtain ⟨between, hbetween⟩ := hs.longest a ⟨front, hinit⟩ (hPQ a hQ)
      exact ⟨between, by rw [← List.append_assoc, hbetween]⟩

/-- A loop that drops the front as long as the rest is not admissible. -/
theorem is_longest_suffix_cons {P : List α → Prop} {s l : List α} {x : α} (hnot : ¬ P (x :: l))
    (h : IsLongestSuffix P s l) : IsLongestSuffix P s (x :: l) where
  suffix := h.suffix.trans (List.suffix_cons x l)
  holds := h.holds
  longest t ht hP := by
    rcases List.suffix_cons_iff.mp ht with rfl | ht
    · exact absurd hP hnot
    · exact h.longest t ht hP

theorem is_longest_suffix_self {P : List α → Prop} {l : List α} (h : P l) : IsLongestSuffix P l l :=
  ⟨List.suffix_refl l, h, fun _ ht _ => ht⟩

end H2Tap.Lib
