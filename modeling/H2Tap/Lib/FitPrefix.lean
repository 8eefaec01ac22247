import Mathlib

/-!
# Size-bounded tables

A table that lists its newest element first, takes new elements at the front, and drops its
oldest elements when a size bound is exceeded. `fitPrefix size cap xs` is what such a table keeps
of `xs`: the longest prefix whose total size is at most `cap`. `fitPrefix_maximal` characterizes
it, `fitPrefix_append_of_lt` says that nothing below an overflowing prefix matters, and
`fitPrefix_concat` is one step of dropping from the tail. `AgreeOnCommon` relates two tables that
are given the same elements under different bounds: one may hold less than the other, but where both
hold something they agree.
-/

namespace H2Tap.Lib

variable {α β : Type*}

/-- The sum of the sizes of a list's elements. -/
def totalSize (size : α → Nat) (xs : List α) : Nat := (xs.map size).sum

/-- The longest prefix of `xs` whose total size is at most `cap`. -/
def fitPrefix (size : α → Nat) : Nat → List α → List α
  | _, [] => []
  | cap, x :: xs => if size x ≤ cap then x :: fitPrefix size (cap - size x) xs else []

/-! ## Total size -/

variable {size : α → Nat}

@[simp] theorem totalSize_nil : totalSize size [] = 0 := rfl

@[simp] theorem totalSize_cons (x : α) (xs : List α) :
    totalSize size (x :: xs) = size x + totalSize size xs := by simp [totalSize]

@[simp] theorem totalSize_append (xs ys : List α) :
    totalSize size (xs ++ ys) = totalSize size xs + totalSize size ys := by simp [totalSize]

/-- The total size only depends on the sizes of the elements. -/
theorem totalSize_map (f : β → α) (xs : List β) :
    totalSize size (xs.map f) = totalSize (fun x => size (f x)) xs := by
  simp [totalSize, Function.comp_def]

/-! ## The longest fitting prefix -/

@[simp] theorem fitPrefix_nil (cap : Nat) : fitPrefix size cap [] = [] := rfl

theorem fitPrefix_isPrefix (cap : Nat) (xs : List α) : fitPrefix size cap xs <+: xs := by
  induction xs generalizing cap with
  | nil => simp
  | cons x xs ih =>
      simp only [fitPrefix]
      split
      · exact List.prefix_cons_inj x |>.mpr (ih _)
      · exact List.nil_prefix

theorem totalSize_fitPrefix_le (cap : Nat) (xs : List α) :
    totalSize size (fitPrefix size cap xs) ≤ cap := by
  induction xs generalizing cap with
  | nil => simp
  | cons x xs ih =>
      simp only [fitPrefix]
      split
      · next hx =>
          have := ih (cap - size x)
          rw [totalSize_cons]
          omega
      · simp

/-- Every prefix within the bound is a prefix of the longest one. -/
theorem fitPrefix_maximal {cap : Nat} {xs ys : List α} (hpre : ys <+: xs)
    (hsize : totalSize size ys ≤ cap) : ys <+: fitPrefix size cap xs := by
  induction xs generalizing cap ys with
  | nil => simpa using hpre
  | cons x xs ih =>
      cases ys with
      | nil => exact List.nil_prefix
      | cons y ys =>
          obtain ⟨rfl, hrest⟩ := List.cons_prefix_cons.mp hpre
          rw [totalSize_cons] at hsize
          have hfits : size y ≤ cap := by omega
          simp only [fitPrefix, hfits, if_true]
          exact (List.prefix_cons_inj y).mpr (ih hrest (by omega))

/-- A list within the bound is kept whole. -/
theorem fitPrefix_of_totalSize_le {cap : Nat} {xs : List α} (h : totalSize size xs ≤ cap) :
    fitPrefix size cap xs = xs :=
  (fitPrefix_isPrefix cap xs).eq_of_length_le (fitPrefix_maximal (List.prefix_refl xs) h).length_le

/-- When a prefix already overflows, what lies below it does not matter. -/
theorem fitPrefix_append_of_lt {cap : Nat} {xs : List α} (ys : List α)
    (h : cap < totalSize size xs) : fitPrefix size cap (xs ++ ys) = fitPrefix size cap xs := by
  induction xs generalizing cap with
  | nil => simp at h
  | cons x xs ih =>
      simp only [List.cons_append, fitPrefix]
      split
      · rw [ih (by rw [totalSize_cons] at h; omega)]
      · rfl

/-- One step of dropping from the tail: an overflowing list loses its last element. -/
theorem fitPrefix_concat {cap : Nat} (xs : List α) (y : α)
    (h : cap < totalSize size (xs ++ [y])) :
    fitPrefix size cap (xs ++ [y]) = fitPrefix size cap xs := by
  by_cases hxs : cap < totalSize size xs
  · exact fitPrefix_append_of_lt [y] hxs
  · have hxs : totalSize size xs ≤ cap := by omega
    rw [fitPrefix_of_totalSize_le hxs]
    obtain hle | hlen : fitPrefix size cap (xs ++ [y]) <+: xs ∨
        fitPrefix size cap (xs ++ [y]) = xs ++ [y] := by
      rcases List.prefix_concat_iff.mp (fitPrefix_isPrefix cap (xs ++ [y])) with h' | h'
      · exact Or.inr h'
      · exact Or.inl h'
    · exact hle.eq_of_length_le
        (fitPrefix_maximal (List.prefix_append xs [y]) hxs).length_le
    · have : totalSize size (fitPrefix size cap (xs ++ [y])) ≤ cap := totalSize_fitPrefix_le _ _
      rw [hlen] at this
      omega

/-- If even an element of the smallest size would overflow the table, the table is all that is
kept of any history that starts with it. -/
theorem fitPrefix_append_of_saturated {cap smallest : Nat} {xs ys : List α}
    (hfits : totalSize size xs ≤ cap) (hfull : cap < totalSize size xs + smallest)
    (hsmallest : ∀ y ∈ ys, smallest ≤ size y) : fitPrefix size cap (xs ++ ys) = xs := by
  cases ys with
  | nil => rw [List.append_nil, fitPrefix_of_totalSize_le hfits]
  | cons y ys =>
      have hy : smallest ≤ size y := hsmallest y (by simp)
      have hover : cap < totalSize size (xs ++ [y]) := by
        simp only [totalSize_append, totalSize_cons, totalSize_nil]
        omega
      rw [show xs ++ y :: ys = (xs ++ [y]) ++ ys by simp, fitPrefix_append_of_lt ys hover,
        fitPrefix_concat xs y hover, fitPrefix_of_totalSize_le hfits]

/-- Cutting a prefix of a history keeps what cutting the history keeps, when the prefix overflows or
leaves no room for an element of the smallest size. -/
theorem fitPrefix_eq_of_isPrefix {cap smallest : Nat} {xs ys : List α} (hpre : xs <+: ys)
    (hsmallest : ∀ y ∈ ys, smallest ≤ size y)
    (hfull : cap < totalSize size xs ∨
      cap < totalSize size (fitPrefix size cap xs) + smallest) :
    fitPrefix size cap xs = fitPrefix size cap ys := by
  obtain ⟨zs, rfl⟩ := hpre
  by_cases hover : cap < totalSize size xs
  · exact (fitPrefix_append_of_lt zs hover).symm
  · have hfits : totalSize size xs ≤ cap := by omega
    rw [fitPrefix_of_totalSize_le hfits] at hfull ⊢
    have hroom : cap < totalSize size xs + smallest := by omega
    exact (fitPrefix_append_of_saturated hfits hroom fun y hy =>
      hsmallest y (List.mem_append_right xs hy)).symm

/-- Cutting a prefix of a list gives a prefix of the list's cut. -/
theorem fitPrefix_isPrefix_of_isPrefix {xs ys : List α} (cap : Nat) (hpre : xs <+: ys) :
    fitPrefix size cap xs <+: fitPrefix size cap ys :=
  fitPrefix_maximal ((fitPrefix_isPrefix cap xs).trans hpre) (totalSize_fitPrefix_le cap xs)

theorem fitPrefix_map (f : β → α) (cap : Nat) (xs : List β) :
    fitPrefix size cap (xs.map f) = (fitPrefix (fun x => size (f x)) cap xs).map f := by
  induction xs generalizing cap with
  | nil => rfl
  | cons x xs ih =>
      simp only [List.map_cons, fitPrefix]
      split
      · rw [ih, List.map_cons]
      · rfl

/-! ## Two tables fed the same elements -/

/-- Wherever both lists have an element, the two are related. -/
def AgreeOnCommon (R : α → β → Prop) (xs : List α) (ys : List β) : Prop :=
  ∀ (i : Nat) x y, xs[i]? = some x → ys[i]? = some y → R x y

namespace AgreeOnCommon

variable {R : α → β → Prop} {xs xs' : List α} {ys ys' : List β}

theorem nil_left (ys : List β) : AgreeOnCommon R [] ys := by
  intro i x y hx
  simp at hx

theorem cons {x : α} {y : β} (hxy : R x y) (h : AgreeOnCommon R xs ys) :
    AgreeOnCommon R (x :: xs) (y :: ys) := by
  intro i a b ha hb
  cases i with
  | zero =>
      obtain rfl : x = a := by simpa using ha
      obtain rfl : y = b := by simpa using hb
      exact hxy
  | succ i => exact h i a b (by simpa using ha) (by simpa using hb)

/-- Dropping elements from the tails keeps the agreement. -/
theorem of_isPrefix (h : AgreeOnCommon R xs ys) (hxs : xs' <+: xs) (hys : ys' <+: ys) :
    AgreeOnCommon R xs' ys' := by
  obtain ⟨zs, rfl⟩ := hxs
  obtain ⟨ws, rfl⟩ := hys
  intro i x y hx hy
  have hi : i < xs'.length := (List.getElem?_eq_some_iff.mp hx).1
  have hj : i < ys'.length := (List.getElem?_eq_some_iff.mp hy).1
  exact h i x y (by rw [List.getElem?_append_left hi, hx])
    (by rw [List.getElem?_append_left hj, hy])

end AgreeOnCommon

end H2Tap.Lib
