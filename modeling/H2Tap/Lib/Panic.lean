import Mathlib

/-!
# Code that may panic

Code that returns an `Option` and that panics on an index or a slice out of range. `Outcome` keeps
the two ways to fail apart, so that a translation that checks every access at run time can be shown
to agree with one that carries the bounds in its terms: the agreement says that no access panics.
A loop is cut off after a number of turns, and returns nothing if it has not ended by then:
`loop_ends` says that it ends when every turn does some of the work.
-/

namespace H2Tap.Lib

variable {α β σ ρ : Type}

/-- What a call does: it panics, or it returns nothing, or it returns a value. -/
inductive Outcome (α : Type) where
  | panic
  | none
  | some (a : α)
  deriving DecidableEq, Repr

namespace Outcome

/-- The outcome of a call that does not panic. -/
def ofOption : Option α → Outcome α
  | .none => .none
  | .some a => .some a

/-- What follows a call that returned a value. -/
def bind : Outcome α → (α → Outcome β) → Outcome β
  | .panic, _ => .panic
  | .none, _ => .none
  | .some a, f => f a

/-- What a call returned, for a caller that looks at it. -/
def attempt : Outcome α → Outcome (Option α)
  | .panic => .panic
  | .none => .some Option.none
  | .some a => .some (Option.some a)

instance : Monad Outcome where
  pure := .some
  bind := Outcome.bind

@[simp] theorem pure_eq (a : α) : (pure a : Outcome α) = .some a := rfl

@[simp] theorem some_bind (a : α) (f : α → Outcome β) : (Outcome.some a >>= f) = f a := rfl

@[simp] theorem none_bind (f : α → Outcome β) : (Outcome.none >>= f) = .none := rfl

@[simp] theorem of_option_none : ofOption (Option.none : Option α) = .none := rfl

@[simp] theorem of_option_some (a : α) : ofOption (Option.some a) = .some a := rfl

/-- A call that does not panic, followed by one that does not. -/
theorem of_option_bind (o : Option α) (f : α → Option β) :
    ofOption (o.bind f) = ofOption o >>= fun a => ofOption (f a) := by
  cases o <;> rfl

@[simp] theorem attempt_of_option (o : Option α) : (ofOption o).attempt = .some o := by
  cases o <;> rfl

theorem of_option_ne_panic (o : Option α) : ofOption o ≠ .panic := by
  cases o <;> simp

end Outcome

/-! ## Accesses -/

variable {b : List α} {i lo hi : Nat}

/-- `b[i]`. -/
def index (b : List α) (i : Nat) : Outcome α :=
  match b[i]? with
  | some a => .some a
  | none => .panic

/-- `&b[lo..hi]`. -/
def slice (b : List α) (lo hi : Nat) : Outcome (List α) :=
  if lo ≤ hi ∧ hi ≤ b.length then .some ((b.take hi).drop lo) else .panic

/-- `&b[lo..]`. -/
def sliceFrom (b : List α) (lo : Nat) : Outcome (List α) := slice b lo b.length

/-- `b.get(lo..hi)?`. -/
def getSlice (b : List α) (lo hi : Nat) : Outcome (List α) :=
  if lo ≤ hi ∧ hi ≤ b.length then .some ((b.take hi).drop lo) else .none

/-- `dst.copy_from_slice(b)` into an array of length `n`. -/
def copyFromSlice (n : Nat) (b : List α) : Outcome { l : List α // l.length = n } :=
  if h : b.length = n then .some ⟨b, h⟩ else .panic

/-- `b.split_at(mid)`. -/
def splitAt (b : List α) (mid : Nat) : Outcome (List α × List α) :=
  if mid ≤ b.length then .some (b.take mid, b.drop mid) else .panic

/-- `a - b` on unsigned integers, with overflow checks. -/
def sub (a b : Nat) : Outcome Nat := if b ≤ a then .some (a - b) else .panic

/-- `o.expect(..)`. -/
def expect : Option α → Outcome α
  | .none => .panic
  | .some a => .some a

@[simp] theorem expect_some (a : α) : expect (Option.some a) = .some a := rfl

theorem index_of_lt (h : i < b.length) : index b i = .some b[i] := by
  rw [index, List.getElem?_eq_getElem h]

theorem slice_of_le (hlo : lo ≤ hi) (hhi : hi ≤ b.length) :
    slice b lo hi = .some ((b.take hi).drop lo) := if_pos ⟨hlo, hhi⟩

theorem slice_from_of_le (h : lo ≤ b.length) : sliceFrom b lo = .some (b.drop lo) := by
  rw [sliceFrom, slice_of_le h le_rfl, List.take_length]

theorem get_slice_of_le (hlo : lo ≤ hi) (hhi : hi ≤ b.length) :
    getSlice b lo hi = .some ((b.take hi).drop lo) := if_pos ⟨hlo, hhi⟩

theorem get_slice_of_lt (h : b.length < hi) : getSlice b lo hi = .none :=
  if_neg fun hbound => Nat.not_le_of_lt h hbound.2

theorem copy_from_slice_of_length {n : Nat} (h : b.length = n) :
    copyFromSlice n b = .some ⟨b, h⟩ := dif_pos h

theorem split_at_of_le (h : i ≤ b.length) : splitAt b i = .some (b.take i, b.drop i) := if_pos h

theorem sub_of_le {m n : Nat} (h : n ≤ m) : sub m n = .some (m - n) := if_pos h

/-! ## Loops -/

/-- What one turn of a loop does: it goes on from another state, or ends the loop with a result. -/
inductive LoopTurn (σ ρ : Type) where
  | more (s : σ)
  | done (r : ρ)

/-- At most `turns` turns of a loop. -/
def loop (body : σ → Outcome (LoopTurn σ ρ)) : Nat → σ → Outcome ρ
  | 0, _ => .none
  | turns + 1, s => body s >>= fun
      | .more s => loop body turns s
      | .done r => .some r

/-- A loop ends without a panic if each turn that goes on keeps the invariant and the result, and
does some of the work. -/
theorem loop_ends {body : σ → Outcome (LoopTurn σ ρ)} (inv : σ → Prop) (work : σ → Nat)
    (result : σ → ρ)
    (hbody : ∀ s, inv s → body s = .some (.done (result s)) ∨
      ∃ s', body s = .some (.more s') ∧ inv s' ∧ work s' < work s ∧ result s' = result s)
    {turns : Nat} {s : σ} (hs : inv s) (hturns : work s < turns) :
    loop body turns s = .some (result s) := by
  induction turns generalizing s with
  | zero => omega
  | succ turns ih =>
      rcases hbody s hs with hdone | ⟨s', hmore, hs', hwork, hresult⟩
      · rw [loop, hdone]
        rfl
      · rw [loop, hmore, Outcome.some_bind, ← hresult]
        exact ih hs' (by omega)

end H2Tap.Lib
