import Mathlib

/-!
# Taking values along a list of keys

`takes` walks along a list of keys and takes the value of each out of a map: a key that comes again
finds nothing. The keys may come in any order (`takes_perm`), and if the first of them are all
different and the others are repetitions, the first ones take all there is (`takes_repeated`). A key
that comes only once is found at one place (`count_eq_one_iff`).
-/

namespace H2Tap.Lib

variable {κ ν : Type*} [DecidableEq κ]

/-- What is found at each key, when what was found is taken out. -/
def takes (nothing : ν) (f : κ → ν) : List κ → List (κ × ν)
  | [] => []
  | k :: ks => (k, f k) :: takes nothing (Function.update f k nothing) ks

theorem takes_length (nothing : ν) (f : κ → ν) (keys : List κ) :
    (takes nothing f keys).length = keys.length := by
  induction keys generalizing f with
  | nil => rfl
  | cons k ks ih => simp only [takes, List.length_cons, ih]

/-- The order of the keys makes no difference to what is found where. -/
theorem takes_perm (nothing : ν) {keys keys' : List κ} (h : keys.Perm keys') (f : κ → ν) :
    (takes nothing f keys).Perm (takes nothing f keys') := by
  induction h generalizing f with
  | nil => exact List.Perm.nil
  | cons k _ ih => exact (ih _).cons _
  | swap k k' ks =>
      by_cases heq : k = k'
      · subst heq
        exact List.Perm.refl _
      · simp only [takes, Function.update_of_ne heq, Function.update_of_ne (Ne.symm heq),
          Function.update_comm heq]
        exact List.Perm.swap _ _ _
  | trans _ _ ih ih' => exact (ih f).trans (ih' f)

/-- Where there is nothing, nothing is found. -/
theorem takes_of_nothing {nothing : ν} {f : κ → ν} {keys : List κ}
    (h : ∀ k ∈ keys, f k = nothing) : takes nothing f keys = keys.map fun k => (k, nothing) := by
  induction keys generalizing f with
  | nil => rfl
  | cons k ks ih =>
      have hrest : ∀ k' ∈ ks, Function.update f k nothing k' = nothing := by
        intro k' hk'
        by_cases heq : k' = k
        · rw [heq, Function.update_self]
        · rw [Function.update_of_ne heq, h k' (List.mem_cons_of_mem _ hk')]
      rw [takes, ih hrest, h k List.mem_cons_self, List.map_cons]

/-- Different keys find all values, and repetitions of them find nothing. -/
theorem takes_repeated {nothing : ν} {f : κ → ν} {keys again : List κ} (hnodup : keys.Nodup)
    (hagain : ∀ k ∈ again, k ∈ keys ∨ f k = nothing) :
    takes nothing f (keys ++ again) =
      keys.map (fun k => (k, f k)) ++ again.map fun k => (k, nothing) := by
  induction keys generalizing f with
  | nil => exact takes_of_nothing fun k hk => (hagain k hk).resolve_left (by simp)
  | cons k ks ih =>
      obtain ⟨hfresh, hnodup⟩ := List.nodup_cons.mp hnodup
      rw [List.cons_append, takes, ih hnodup, List.map_cons, List.cons_append]
      · congr 2
        refine List.map_congr_left fun k' hk' => ?_
        have hne : k' ≠ k := fun heq => hfresh (heq ▸ hk')
        rw [Function.update_of_ne hne]
      · intro k' hk'
        by_cases heq : k' = k
        · exact Or.inr (heq ▸ Function.update_self _ _ _)
        · rw [Function.update_of_ne heq]
          exact (hagain k' hk').imp_left fun hmem => (List.mem_cons.mp hmem).resolve_left heq

/-- A value occurs once in a list exactly if it is at no other place. -/
theorem count_eq_one_iff {α : Type*} [BEq α] [LawfulBEq α] {l : List α} {a : α} {i : Nat}
    (hi : l[i]? = some a) : l.count a = 1 ↔ ∀ j, l[j]? = some a → j = i := by
  have hpos : 0 < l.count a := List.count_pos_iff.mpr (List.mem_of_getElem? hi)
  have htwice : l.count a ≠ 1 ↔ l.Duplicate a := by
    rw [List.duplicate_iff_sublist, show [a, a] = List.replicate 2 a from rfl,
      List.replicate_sublist_iff]
    omega
  constructor
  · intro hone j hj
    by_contra hne
    refine absurd hone (htwice.mpr ?_)
    obtain ⟨hjrange, hja⟩ := List.getElem?_eq_some_iff.mp hj
    obtain ⟨hirange, hia⟩ := List.getElem?_eq_some_iff.mp hi
    rw [List.duplicate_iff_exists_distinct_get]
    rcases Nat.lt_or_gt_of_ne hne with hlt | hlt
    · exact ⟨⟨j, hjrange⟩, ⟨i, hirange⟩, hlt, hja.symm, hia.symm⟩
    · exact ⟨⟨i, hirange⟩, ⟨j, hjrange⟩, hlt, hia.symm, hja.symm⟩
  · intro hall
    by_contra hone
    obtain ⟨n, m, hlt, hn, hm⟩ := List.duplicate_iff_exists_distinct_get.mp (htwice.mp hone)
    have hindex : ∀ j : Fin l.length, a = l.get j → (j : Nat) = i := fun j hj =>
      hall j (by rw [List.getElem?_eq_getElem j.isLt, hj]; rfl)
    exact absurd ((hindex n hn).trans (hindex m hm).symm) (Nat.ne_of_lt hlt)

end H2Tap.Lib
