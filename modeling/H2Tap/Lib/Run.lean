import Mathlib

/-!
# Runs of a machine with outputs

A machine is a step function from a state and an input to a state and an output. `run` feeds it a
list of inputs, `Guarded` says that a condition holds at every step of a run. `run_invariant` lifts
what a guarded step keeps to guarded runs. Since a run may stop after any input, a statement about
the end of every run is one about every reachable state.
-/

namespace H2Tap.Lib

variable {σ τ ι ω ω' : Type*}

/-- The state after a list of inputs and the outputs on the way. -/
def run (step : σ → ι → σ × ω) : σ → List ι → σ × List ω
  | s, [] => (s, [])
  | s, i :: is => ((run step (step s i).1 is).1, (step s i).2 :: (run step (step s i).1 is).2)

/-- The condition `G` holds of the state and the input at every step of a run. -/
def Guarded (step : σ → ι → σ × ω) (G : σ → ι → Prop) : σ → List ι → Prop
  | _, [] => True
  | s, i :: is => G s i ∧ Guarded step G (step s i).1 is

/-- `P` holds in every state of a run, the first and the last included. -/
def Always (step : σ → ι → σ × ω) (P : σ → Prop) : σ → List ι → Prop
  | s, [] => P s
  | s, i :: is => P s ∧ Always step P (step s i).1 is

variable {step : σ → ι → σ × ω}

instance Guarded.decidable {G : σ → ι → Prop} [hG : ∀ s i, Decidable (G s i)] :
    ∀ s is, Decidable (Guarded step G s is)
  | _, [] => isTrue trivial
  | s, i :: is => @instDecidableAnd _ _ (hG s i) (Guarded.decidable _ is)

instance Always.decidable {P : σ → Prop} [hP : ∀ s, Decidable (P s)] :
    ∀ s is, Decidable (Always step P s is)
  | s, [] => hP s
  | s, _ :: _ => @instDecidableAnd _ _ (hP s) (Always.decidable _ _)

@[simp] theorem run_nil (s : σ) : run step s [] = (s, []) := rfl

/-- A run over two lists of inputs is one run after the other. -/
theorem run_append (s : σ) (is js : List ι) :
    run step s (is ++ js) = ((run step (run step s is).1 js).1,
      (run step s is).2 ++ (run step (run step s is).1 js).2) := by
  induction is generalizing s with
  | nil => rfl
  | cons i is ih => simp only [List.cons_append, run, ih]

/-- The first input. -/
theorem run_cons_fst (s : σ) (i : ι) (is : List ι) :
    (run step s (i :: is)).1 = (run step (step s i).1 is).1 := rfl

/-- The last input. -/
theorem run_concat_fst (s : σ) (is : List ι) (i : ι) :
    (run step s (is ++ [i])).1 = (step (run step s is).1 i).1 := by
  rw [run_append]
  rfl

/-- An empty condition guards every run. -/
theorem guarded_true (s : σ) (is : List ι) : Guarded step (fun _ _ => True) s is := by
  induction is generalizing s with
  | nil => trivial
  | cons i is ih => exact ⟨trivial, ih _⟩

/-- Two conditions that guard a run guard it together. -/
theorem Guarded.and {G H : σ → ι → Prop} {s : σ} {is : List ι} (hG : Guarded step G s is)
    (hH : Guarded step H s is) : Guarded step (fun s i => G s i ∧ H s i) s is := by
  induction is generalizing s with
  | nil => trivial
  | cons i is ih => exact ⟨⟨hG.1, hH.1⟩, ih hG.2 hH.2⟩

/-- A condition may be replaced by one that it implies. -/
theorem Guarded.imp {G H : σ → ι → Prop} (himp : ∀ s i, G s i → H s i) {s : σ} {is : List ι}
    (hguard : Guarded step G s is) : Guarded step H s is := by
  induction is generalizing s with
  | nil => trivial
  | cons i is ih => exact ⟨himp s i hguard.1, ih hguard.2⟩

/-- The condition holds at every input of a guarded run. -/
theorem Guarded.of_mem {G : σ → ι → Prop} {s : σ} {is : List ι} (hguard : Guarded step G s is)
    {i : ι} (hi : i ∈ is) : ∃ s', G s' i := by
  induction is generalizing s with
  | nil => cases hi
  | cons j js ih =>
      rcases List.mem_cons.mp hi with rfl | hlater
      · exact ⟨s, hguard.1⟩
      · exact ih hguard.2 hlater

/-- A property of every input may be added to a guard. -/
theorem Guarded.and_inputs {G : σ → ι → Prop} {C : ι → Prop} {s : σ} {is : List ι}
    (hguard : Guarded step G s is) (hC : ∀ i ∈ is, C i) :
    Guarded step (fun s i => G s i ∧ C i) s is := by
  induction is generalizing s with
  | nil => trivial
  | cons i is ih =>
      obtain ⟨hG, hrest⟩ := hguard
      exact ⟨⟨hG, hC i List.mem_cons_self⟩, ih hrest fun j hj => hC j (List.mem_cons_of_mem _ hj)⟩

/-- What every guarded step keeps, with a property of its output, holds along guarded runs. -/
theorem run_invariant (step : σ → ι → σ × ω) {P : σ → Prop} {G : σ → ι → Prop} {Q : ω → Prop}
    (hstep : ∀ s i, P s → G s i → P (step s i).1 ∧ Q (step s i).2) {s : σ} {is : List ι}
    (hinit : P s) (hguard : Guarded step G s is) :
    P (run step s is).1 ∧ ∀ o ∈ (run step s is).2, Q o := by
  induction is generalizing s with
  | nil => exact ⟨hinit, by simp⟩
  | cons i is ih =>
      obtain ⟨hG, hrest⟩ := hguard
      obtain ⟨hnext, hout⟩ := hstep s i hinit hG
      obtain ⟨hfinal, houts⟩ := ih hnext hrest
      refine ⟨hfinal, ?_⟩
      simp only [run, List.mem_cons, forall_eq_or_imp]
      exact ⟨hout, houts⟩

/-- What holds in every state of a run may be replaced by what it implies. -/
theorem Always.imp {P Q : σ → Prop} (himp : ∀ s, P s → Q s) {s : σ} {is : List ι}
    (h : Always step P s is) : Always step Q s is := by
  induction is generalizing s with
  | nil => exact himp s h
  | cons i is ih => exact ⟨himp s h.1, ih h.2⟩

theorem Always.and {P Q : σ → Prop} {s : σ} {is : List ι} (hP : Always step P s is)
    (hQ : Always step Q s is) : Always step (fun s => P s ∧ Q s) s is := by
  induction is generalizing s with
  | nil => exact ⟨hP, hQ⟩
  | cons i is ih => exact ⟨⟨hP.1, hQ.1⟩, ih hP.2 hQ.2⟩

/-- What holds in every state of a run holds at its end. -/
theorem Always.final {P : σ → Prop} {s : σ} {is : List ι} (h : Always step P s is) :
    P (run step s is).1 := by
  induction is generalizing s with
  | nil => exact h
  | cons i is ih => exact ih h.2

/-- What holds in every state of a run holds in every state before its last input, and at its
end. -/
theorem Always.of_concat {P : σ → Prop} {s : σ} {is : List ι} {i : ι}
    (h : Always step P s (is ++ [i])) :
    Always step P s is ∧ P (run step s (is ++ [i])).1 := by
  induction is generalizing s with
  | nil => exact ⟨h.1, h.2⟩
  | cons j js ih =>
      obtain ⟨hrest, hend⟩ := ih h.2
      exact ⟨⟨h.1, hrest⟩, hend⟩

/-- What every guarded step keeps holds in every state of a guarded run. -/
theorem Guarded.always {P : σ → Prop} {G : σ → ι → Prop}
    (hstep : ∀ s i, P s → G s i → P (step s i).1) {s : σ} {is : List ι} (hinit : P s)
    (hguard : Guarded step G s is) : Always step P s is := by
  induction is generalizing s with
  | nil => exact hinit
  | cons i is ih => exact ⟨hinit, ih (hstep s i hinit hguard.1) hguard.2⟩

/-- Two machines whose steps keep their states related have related runs. -/
theorem run_simulation (step : σ → ι → σ × ω) (step' : τ → ι → τ × ω') {R : σ → τ → Prop}
    {Q : ω → ω' → Prop}
    (hstep : ∀ s t i, R s t → R (step s i).1 (step' t i).1 ∧ Q (step s i).2 (step' t i).2)
    {s : σ} {t : τ} (is : List ι) (hinit : R s t) :
    R (run step s is).1 (run step' t is).1 ∧
      List.Forall₂ Q (run step s is).2 (run step' t is).2 := by
  induction is generalizing s t with
  | nil => exact ⟨hinit, .nil⟩
  | cons i is ih =>
      obtain ⟨hnext, hout⟩ := hstep s t i hinit
      obtain ⟨hfinal, houts⟩ := ih hnext
      exact ⟨hfinal, .cons hout houts⟩

/-- Two machines have related runs if their steps keep their states related as long as the first run
is guarded. -/
theorem Guarded.simulation {G : σ → ι → Prop} {step' : τ → ι → τ × ω'} {R : σ → τ → Prop}
    (hstep : ∀ s t i, R s t → G s i → R (step s i).1 (step' t i).1) {s : σ} {t : τ} {is : List ι}
    (hinit : R s t) (hguard : Guarded step G s is) : R (run step s is).1 (run step' t is).1 := by
  induction is generalizing s t with
  | nil => exact hinit
  | cons i is ih => exact ih (hstep s t i hinit hguard.1) hguard.2

/-- If a step from a good state leads to a good state exactly when its condition holds, then all
states of a run that starts in a good state are good exactly when the run is guarded. `J` is an
invariant of the runs through good states and `C` a property of the inputs that the step may rely
on. -/
theorem always_iff_guarded {J P : σ → Prop} {G : σ → ι → Prop} {C : ι → Prop}
    (hinv : ∀ s i, J s → C i → P (step s i).1 → J (step s i).1)
    (hstep : ∀ s i, J s → P s → C i → (P (step s i).1 ↔ G s i)) {s : σ} {is : List ι}
    (hJ : J s) (hP : P s) (hC : ∀ i ∈ is, C i) : Always step P s is ↔ Guarded step G s is := by
  induction is generalizing s with
  | nil => exact iff_of_true hP trivial
  | cons i is ih =>
      have hCi : C i := hC i List.mem_cons_self
      have hi := hstep s i hJ hP hCi
      have hrest (hgood : P (step s i).1) := ih (hinv s i hJ hCi hgood) hgood fun j hj =>
        hC j (List.mem_cons_of_mem _ hj)
      constructor
      · rintro ⟨-, hnext⟩
        have hgood : P (step s i).1 := by
          cases is with
          | nil => exact hnext
          | cons j js => exact hnext.1
        exact ⟨hi.mp hgood, (hrest hgood).mp hnext⟩
      · rintro ⟨hG, hnext⟩
        exact ⟨hP, (hrest (hi.mpr hG)).mpr hnext⟩

/-- If moreover a step from a bad state leads to a bad state, then the end of a run that starts in a
good state is good exactly when the run is guarded. -/
theorem end_iff_guarded {J P : σ → Prop} {C G : σ → ι → Prop}
    (hinv : ∀ s i, J s → C s i → J (step s i).1)
    (hstep : ∀ s i, J s → P s → C s i → (P (step s i).1 ↔ G s i))
    (hbad : ∀ s i, J s → ¬P s → C s i → ¬P (step s i).1) {s : σ} {is : List ι} (hJ : J s)
    (hC : Guarded step C s is) (hP : P s) : P (run step s is).1 ↔ Guarded step G s is := by
  have hlost : ∀ (is : List ι) (s : σ), J s → Guarded step C s is → ¬P s →
      ¬P (run step s is).1 := by
    intro is
    induction is with
    | nil => exact fun s _ _ hs => hs
    | cons i is ih => exact fun s hJ hC hs => ih _ (hinv s i hJ hC.1) hC.2 (hbad s i hJ hs hC.1)
  induction is generalizing s with
  | nil => exact iff_of_true hP trivial
  | cons i is ih =>
      obtain ⟨hCi, hCrest⟩ := hC
      have hJ' : J (step s i).1 := hinv s i hJ hCi
      have hi := hstep s i hJ hP hCi
      by_cases hgood : P (step s i).1
      · have hrest : P (run step (step s i).1 is).1 ↔ Guarded step G (step s i).1 is :=
          ih hJ' hCrest hgood
        exact hrest.trans ⟨fun hguard => ⟨hi.mp hgood, hguard⟩, fun hguard => hguard.2⟩
      · refine iff_of_false (hlost is _ hJ' hCrest hgood) fun hguard => hgood (hi.mpr hguard.1)

/-- If a step from a good state does well exactly when its condition holds, and then leads to a good
state, then all steps of a run do well exactly when the run is guarded. `C` is what the steps may
rely on. -/
theorem guarded_iff_guarded {J : σ → Prop} {C H G : σ → ι → Prop}
    (hstep : ∀ s i, J s → C s i → (H s i ↔ G s i))
    (hinv : ∀ s i, J s → C s i → G s i → J (step s i).1) {s : σ} {is : List ι} (hJ : J s)
    (hC : Guarded step C s is) : Guarded step H s is ↔ Guarded step G s is := by
  induction is generalizing s with
  | nil => exact Iff.rfl
  | cons i is ih =>
      obtain ⟨hCi, hCrest⟩ := hC
      have hi := hstep s i hJ hCi
      constructor
      · rintro ⟨hH, hrest⟩
        exact ⟨hi.mp hH, (ih (hinv s i hJ hCi (hi.mp hH)) hCrest).mp hrest⟩
      · rintro ⟨hG, hrest⟩
        exact ⟨hi.mpr hG, (ih (hinv s i hJ hCi hG) hCrest).mpr hrest⟩

/-- Inputs that change nothing can be left out. -/
theorem run_filter [DecidableEq ω] (keep : ι → Bool) (quiet : ω) {is : List ι}
    (hquiet : ∀ i ∈ is, keep i = false → ∀ s, step s i = (s, quiet)) (s : σ) :
    (run step s (is.filter keep)).1 = (run step s is).1 ∧
      (run step s (is.filter keep)).2.filter (fun o => o ≠ quiet) =
        (run step s is).2.filter (fun o => o ≠ quiet) := by
  induction is generalizing s with
  | nil => exact ⟨rfl, rfl⟩
  | cons i is ih =>
      have hrest := fun s => ih (fun j hj => hquiet j (List.mem_cons_of_mem _ hj)) s
      cases hkeep : keep i with
      | true =>
          obtain ⟨hstate, houts⟩ := hrest (step s i).1
          rw [List.filter_cons_of_pos hkeep, run, run]
          refine ⟨hstate, ?_⟩
          rw [List.filter_cons, List.filter_cons, houts]
      | false =>
          obtain ⟨hstate, houts⟩ := hrest s
          have hstep := hquiet i List.mem_cons_self hkeep s
          rw [List.filter_cons_of_neg (by rw [hkeep]; exact Bool.false_ne_true), run, hstep]
          refine ⟨hstate, ?_⟩
          rw [houts, List.filter_cons_of_neg (by simp)]

/-! ## Histories -/

variable {α : Type*}

/-- `P` holds of every element of a list and what came before it, first `past`, then the elements of
the list. -/
def AtEach (P : List α → α → Prop) : List α → List α → Prop
  | _, [] => True
  | past, x :: xs => P past x ∧ AtEach P (past ++ [x]) xs

variable {P : List α → α → Prop}

theorem at_each_append {past xs ys : List α} (hxs : AtEach P past xs)
    (hys : AtEach P (past ++ xs) ys) : AtEach P past (xs ++ ys) := by
  induction xs generalizing past with
  | nil => rwa [List.append_nil] at hys
  | cons x xs ih =>
      refine ⟨hxs.1, ih hxs.2 ?_⟩
      rwa [List.append_assoc]

/-- What holds at each element may be replaced by what it implies. -/
theorem AtEach.imp {Q : List α → α → Prop} (himp : ∀ past x, P past x → Q past x)
    {past xs : List α} (h : AtEach P past xs) : AtEach Q past xs := by
  induction xs generalizing past with
  | nil => trivial
  | cons x xs ih => exact ⟨himp past x h.1, ih h.2⟩

/-- What holds at each element of two lists holds at those of the first, and at those of the second
after it. -/
theorem AtEach.of_append {past xs ys : List α} (h : AtEach P past (xs ++ ys)) :
    AtEach P past xs ∧ AtEach P (past ++ xs) ys := by
  induction xs generalizing past with
  | nil =>
      rw [List.append_nil]
      exact ⟨trivial, h⟩
  | cons x xs ih =>
      obtain ⟨hxs, hys⟩ := ih h.2
      rw [List.append_assoc] at hys
      exact ⟨⟨h.1, hxs⟩, hys⟩

/-- What holds at each element, if it holds wherever the list is split. -/
theorem at_each_of_splits {past xs : List α}
    (h : ∀ before x after, xs = before ++ x :: after → P (past ++ before) x) :
    AtEach P past xs := by
  induction xs generalizing past with
  | nil => trivial
  | cons x xs ih =>
      refine ⟨?_, ih fun before y after hsplit => ?_⟩
      · have hfirst := h [] x xs rfl
        rwa [List.append_nil] at hfirst
      · have hlater := h (x :: before) y after (by rw [hsplit, List.cons_append])
        rwa [List.append_assoc]

/-- An element of the list, with all that came before it. -/
theorem AtEach.split {past before after : List α} {x : α}
    (h : AtEach P past (before ++ x :: after)) : P (past ++ before) x := by
  induction before generalizing past with
  | nil =>
      rw [List.append_nil]
      exact h.1
  | cons y before ih =>
      have hlater := ih h.2
      rwa [List.append_assoc] at hlater

end H2Tap.Lib
