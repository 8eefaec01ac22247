import Mathlib

/-!
# How far a set of spans reaches

Spans are half-open intervals of a linear order. `reach` follows them from a point on: as long as
one of them holds the point it goes on to the end of that one. `reach_unique` characterizes where it
stops: the least point from which no span leads on.
-/

namespace H2Tap.Lib

variable {α : Type*} [LinearOrder α]

/-- No span that starts at or before `p` goes on after it. -/
def StopsAt (spans : List (α × α)) (p : α) : Prop := ∀ s ∈ spans, s.1 ≤ p → s.2 ≤ p

instance (spans : List (α × α)) (p : α) : Decidable (StopsAt spans p) :=
  inferInstanceAs (Decidable (∀ s ∈ spans, _ → _))

/-- The point to which the spans lead from `p`. -/
def reach (spans : List (α × α)) (p : α) : α :=
  match _h : spans.find? fun s => s.1 ≤ p ∧ p < s.2 with
  | some s => reach spans s.2
  | none => p
termination_by spans.countP fun s => p < s.2
decreasing_by
  have hmem := List.mem_of_find?_eq_some _h
  have hspan : s.1 ≤ p ∧ p < s.2 := by simpa using List.find?_some _h
  obtain ⟨before, after, rfl⟩ := List.append_of_mem hmem
  have hfewer : ∀ l : List (α × α), (l.countP fun t => s.2 < t.2) ≤ l.countP fun t => p < t.2 :=
    fun l => List.countP_mono_left fun t _ ht => by
      rw [decide_eq_true_eq] at ht ⊢
      exact hspan.2.trans ht
  have hbefore := hfewer before
  have hafter := hfewer after
  simp only [List.countP_append, List.countP_cons, lt_self_iff_false, decide_false,
    Bool.false_eq_true, if_false, hspan.2, decide_true, if_true]
  omega

variable {spans : List (α × α)} {p q : α}

/-- The spans lead to the least point at which they stop. -/
theorem reach_spec (spans : List (α × α)) (p : α) :
    p ≤ reach spans p ∧ StopsAt spans (reach spans p) ∧
      ∀ q, p ≤ q → StopsAt spans q → reach spans p ≤ q := by
  induction p using reach.induct spans with
  | case1 p s hfind ih =>
      have hspan : s.1 ≤ p ∧ p < s.2 := by simpa using List.find?_some hfind
      have hreach : reach spans p = reach spans s.2 := by
        rw [reach]
        split
        · next t ht =>
            rw [hfind] at ht
            cases ht
            rfl
        · next hnone =>
            rw [hfind] at hnone
            cases hnone
      obtain ⟨hle, hstops, hleast⟩ := ih
      rw [hreach]
      refine ⟨hspan.2.le.trans hle, hstops, fun q hq hstop => hleast q ?_ hstop⟩
      exact hstop s (List.mem_of_find?_eq_some hfind) (hspan.1.trans hq)
  | case2 p hfind =>
      have hreach : reach spans p = p := by
        rw [reach]
        split
        · next t ht =>
            rw [hfind] at ht
            cases ht
        · rfl
      rw [hreach]
      refine ⟨le_refl p, fun s hs hle => ?_, fun q hq _ => hq⟩
      have hnot := List.find?_eq_none.mp hfind s hs
      simp only [decide_eq_true_eq, not_and, not_lt] at hnot
      exact hnot hle

theorem le_reach (spans : List (α × α)) (p : α) : p ≤ reach spans p := (reach_spec spans p).1

theorem stops_at_reach (spans : List (α × α)) (p : α) : StopsAt spans (reach spans p) :=
  (reach_spec spans p).2.1

/-- The least point at which the spans stop is where they lead. -/
theorem reach_unique (hle : p ≤ q) (hstops : StopsAt spans q)
    (hleast : ∀ q', p ≤ q' → StopsAt spans q' → q ≤ q') : reach spans p = q :=
  le_antisymm ((reach_spec spans p).2.2 q hle hstops)
    (hleast _ (le_reach spans p) (stops_at_reach spans p))

/-- A span that holds the point may be taken first. -/
theorem reach_of_mem {s : α × α} {later : List (α × α)} (hperm : spans.Perm (s :: later))
    (hs : s.1 ≤ p) : reach later (max p s.2) = reach spans p := by
  refine reach_unique (max_le (le_reach _ _) ?_) (fun t ht => ?_) fun q hq hstop => ?_
  · exact stops_at_reach spans p s (hperm.mem_iff.mpr List.mem_cons_self)
      (hs.trans (le_reach _ _))
  · exact stops_at_reach spans p t (hperm.mem_iff.mpr (List.mem_cons_of_mem _ ht))
  · refine (reach_spec spans p).2.2 q ((le_max_left _ _).trans hq) fun t ht hle => ?_
    rcases List.mem_cons.mp (hperm.mem_iff.mp ht) with rfl | ht
    · exact (le_max_right _ _).trans hq
    · exact hstop t ht hle

/-- Where every span starts later the spans lead nowhere. -/
theorem reach_of_later (h : ∀ s ∈ spans, p < s.1) : reach spans p = p :=
  reach_unique (le_refl p) (fun s hs hle => absurd hle (not_le.mpr (h s hs))) fun _ hq _ => hq

end H2Tap.Lib
