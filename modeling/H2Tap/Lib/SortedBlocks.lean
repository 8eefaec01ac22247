import Mathlib

/-!
# Sorting a list of blocks

A list that consists of sorted blocks, any two of which lie entirely before or after each other, is
sorted block by block: no block is torn apart (`sort_filter_blocks`).
-/

namespace H2Tap.Lib

variable {α β : Type*} [LinearOrder β] (key : α → β)

/-- All of one block comes before all of the other. -/
def Before (a b : List α) : Prop := ∀ x ∈ a, ∀ y ∈ b, key x < key y

/-- The blocks are sorted, and no two overlap. -/
structure Separate (blocks : List (List α)) : Prop where
  sorted : ∀ b ∈ blocks, b.Pairwise fun x y => key x < key y
  apart : blocks.Pairwise fun a b => Before key a b ∨ Before key b a
  nonempty : ∀ b ∈ blocks, b ≠ []

theorem Before.trans {a b c : List α} (hb : b ≠ []) (h : Before key a b) (h' : Before key b c) :
    Before key a c := by
  obtain ⟨y, hy⟩ := List.exists_mem_of_ne_nil b hb
  exact fun x hx z hz => (h x hx y hy).trans (h' y hy z hz)

/-- Separate blocks can be put in order. -/
theorem Separate.ordered {blocks : List (List α)} (h : Separate key blocks) :
    ∃ ordered : List (List α), ordered.Perm blocks ∧ ordered.Pairwise (Before key) := by
  induction blocks with
  | nil => exact ⟨[], List.Perm.nil, List.Pairwise.nil⟩
  | cons b blocks ih =>
      obtain ⟨hapart, hrest⟩ := List.pairwise_cons.mp h.apart
      obtain ⟨ordered, hperm, hordered⟩ := ih ⟨fun c hc => h.sorted c (List.mem_cons_of_mem _ hc),
        hrest, fun c hc => h.nonempty c (List.mem_cons_of_mem _ hc)⟩
      have hb : b ≠ [] := h.nonempty b List.mem_cons_self
      -- `b` goes between the blocks before it and the blocks after it
      classical
      let isBefore : List α → Bool := fun c => decide (Before key c b)
      refine ⟨ordered.filter isBefore ++ b :: ordered.filter fun c => !isBefore c, ?_, ?_⟩
      · refine List.perm_middle.trans (List.Perm.cons b ?_)
        exact (List.filter_append_perm isBefore ordered).trans hperm
      · have hafter : ∀ c ∈ ordered.filter fun c => !isBefore c, Before key b c := by
          intro c hc
          obtain ⟨hmem, hnot⟩ := List.mem_filter.mp hc
          have hnot : ¬ Before key c b := by simpa [isBefore] using hnot
          exact (hapart c (hperm.subset hmem)).resolve_right hnot
        refine List.pairwise_append.mpr ⟨hordered.filter _,
          List.pairwise_cons.mpr ⟨hafter, hordered.filter _⟩, ?_⟩
        intro c hc e he
        have hcb : Before key c b := by simpa [isBefore] using (List.mem_filter.mp hc).2
        rcases List.mem_cons.mp he with rfl | he
        · exact hcb
        · exact hcb.trans key hb (hafter e he)

theorem merge_sort_pairwise (l : List α) :
    (l.mergeSort fun x y => decide (key x ≤ key y)).Pairwise fun x y => key x ≤ key y := by
  have hmerge : (l.mergeSort fun x y => decide (key x ≤ key y)).Pairwise
      fun x y => decide (key x ≤ key y) = true := by
    refine List.pairwise_mergeSort (fun x y z hxy hyz => ?_) (fun x y => ?_) l
    · simp only [decide_eq_true_eq] at *
      exact hxy.trans hyz
    · simpa using le_total (key x) (key y)
  exact hmerge.imp fun hle => of_decide_eq_true hle

/-- Sorting a list and keeping some of it gives the one sorted list of what is kept. -/
theorem sort_filter_eq {l sorted : List α} {p : α → Bool} (hperm : sorted.Perm (l.filter p))
    (hsorted : sorted.Pairwise fun x y => key x < key y) :
    (l.mergeSort fun x y => decide (key x ≤ key y)).filter p = sorted := by
  have hsame : ((l.mergeSort fun x y => decide (key x ≤ key y)).filter p).Perm sorted :=
    ((List.mergeSort_perm l _).filter p).trans hperm.symm
  have hnodup : (sorted.map key).Nodup := List.pairwise_map.mpr (hsorted.imp fun hlt => hlt.ne)
  have hantisymm : ∀ x y, x ∈ (l.mergeSort fun x y => decide (key x ≤ key y)).filter p →
      y ∈ sorted → key x ≤ key y → key y ≤ key x → x = y := fun x y hx hy hxy hyx =>
    List.inj_on_of_nodup_map hnodup (hsame.subset hx) hy (le_antisymm hxy hyx)
  exact List.Perm.eq_of_pairwise hantisymm ((merge_sort_pairwise key l).filter p)
    (hsorted.imp fun hlt => hlt.le) hsame

/-- Sorting a list and keeping some of it, when what is kept consists of separate blocks. -/
theorem sort_filter_blocks {l : List α} {p : α → Bool} {blocks : List (List α)}
    (hblocks : l.filter p = blocks.flatten) (h : Separate key blocks) :
    ∃ ordered : List (List α), ordered.Perm blocks ∧
      (l.mergeSort fun x y => decide (key x ≤ key y)).filter p = ordered.flatten := by
  obtain ⟨ordered, hperm, hordered⟩ := h.ordered
  refine ⟨ordered, hperm, sort_filter_eq key (hblocks ▸ hperm.flatten) ?_⟩
  rw [List.pairwise_flatten]
  exact ⟨fun b hb => h.sorted b (hperm.subset hb), hordered⟩

/-- Sorting is stable: elements with the same key stay in their order. -/
theorem merge_sort_stable {l : List α} {R : α → α → Prop} (h : l.Pairwise R) :
    (l.mergeSort fun x y => decide (key x ≤ key y)).Pairwise
      fun x y => key x < key y ∨ key x = key y ∧ R x y := by
  let le : α → α → Bool := fun x y => decide (key x ≤ key y)
  have htrans : ∀ x y z, le x y = true → le y z = true → le x z = true := by
    intro x y z hxy hyz
    simp only [le, decide_eq_true_eq] at *
    exact hxy.trans hyz
  have htotal : ∀ x y, (le x y || le y x) = true := by
    intro x y
    simpa [le] using le_total (key x) (key y)
  rw [← List.mergeSort_zipIdx, List.pairwise_map]
  have hsorted := List.pairwise_mergeSort (List.zipIdxLE_trans htrans) (List.zipIdxLE_total htotal)
    l.zipIdx
  have hnodup : ((l.zipIdx.mergeSort (List.zipIdxLE le)).map Prod.snd).Nodup := by
    refine ((List.mergeSort_perm _ _).map Prod.snd).nodup_iff.mpr ?_
    rw [List.zipIdx_map_snd]
    exact List.nodup_range'
  have hat : ∀ {x : α} {i : Nat}, (x, i) ∈ l.zipIdx.mergeSort (List.zipIdxLE le) →
      l[i]? = some x := fun hmem => List.mem_zipIdx_iff_getElem?.mp (List.mem_mergeSort.mp hmem)
  refine (hsorted.and (List.pairwise_map.mp hnodup)).imp_of_mem ?_
  rintro ⟨x, i⟩ ⟨y, j⟩ hx hy ⟨hle, hne⟩
  simp only [List.zipIdxLE, le, decide_eq_true_eq] at hle
  split at hle
  · next hxy =>
      split at hle
      · next hyx =>
          have hlt : i < j := lt_of_le_of_ne (of_decide_eq_true hle) hne
          obtain ⟨hi, rfl⟩ := List.getElem?_eq_some_iff.mp (hat hx)
          obtain ⟨hj, rfl⟩ := List.getElem?_eq_some_iff.mp (hat hy)
          exact Or.inr ⟨le_antisymm hxy hyx, List.pairwise_iff_getElem.mp h i j hi hj hlt⟩
      · next hyx => exact Or.inl (lt_of_not_ge hyx)
  · cases hle

end H2Tap.Lib
