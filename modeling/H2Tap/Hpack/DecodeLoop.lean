import H2Tap.Hpack.Table

/-!
# What one iteration of the decode loop can do

`resolve_cases`, `read_literal_ok` and `decode_rep_cases` list every outcome of the functions they
are about, so that no later proof unfolds them. `decode_loop_rule` turns a property that every
iteration keeps into one of a whole header block; its guarded form takes a condition on the
decoder and the bytes at each iteration that is reached.
-/

namespace H2Tap.Decoder

/-- The decoder after one more index could not be resolved. -/
def countUnresolved (d : Decoder) : Decoder := { d with unresolved := d.unresolved + 1 }

@[simp] theorem count_unresolved_table (d : Decoder) : d.countUnresolved.table = d.table := rfl

@[simp] theorem count_unresolved_unresolved (d : Decoder) :
    d.countUnresolved.unresolved = d.unresolved + 1 := rfl

/-- An index resolves to an entry, is refused by an exact table, or becomes a placeholder. -/
theorem resolve_cases {d d' : Decoder} {index : Nat} {r : Except HpackError Field}
    (h : d.resolve index = (d', r)) :
    (∃ f, d.lookup index = some f ∧ d' = d ∧ r = .ok f) ∨
    (d.lookup index = none ∧ d.isExact = true ∧ d' = d ∧ r = .error (.badIndex index)) ∨
    (d.lookup index = none ∧ d.isExact = false ∧ d' = d.countUnresolved ∧
      r = .ok (placeholderField index)) := by
  unfold resolve at h
  split at h
  · next f hf =>
      cases h
      exact Or.inl ⟨f, hf, rfl, rfl⟩
  · next hnone =>
      split at h
      · next hexact =>
          cases h
          exact Or.inr (Or.inl ⟨hnone, hexact, rfl, rfl⟩)
      · next hlossy =>
          cases h
          exact Or.inr (Or.inr ⟨hnone, by simpa using hlossy, rfl, rfl⟩)

/-- Resolving changes at most the count of unresolved references. -/
theorem resolve_frame {d d' : Decoder} {index : Nat} {r : Except HpackError Field}
    (h : d.resolve index = (d', r)) : d' = d ∨ d' = d.countUnresolved := by
  rcases resolve_cases h with ⟨f, -, hd, -⟩ | ⟨-, -, hd, -⟩ | ⟨-, -, hd, -⟩
  · exact Or.inl hd
  · exact Or.inl hd
  · exact Or.inr hd

variable [HuffmanDecoding]

theorem read_value_ok {d d' : Decoder} {name b rest : Bytes} {unknown : Bool} {f : Field}
    (h : d.readValue name unknown b = (d', .ok (f, rest))) :
    d' = d ∧ ∃ value, f = ⟨name, value, false, unknown⟩ := by
  unfold readValue at h
  split at h
  · cases h
  · cases h
    exact ⟨rfl, _, rfl⟩

theorem read_value_frame {d d' : Decoder} {name b : Bytes} {unknown : Bool}
    {r : Except HpackError (Field × Bytes)} (h : d.readValue name unknown b = (d', r)) :
    d' = d := by
  unfold readValue at h
  split at h <;> (cases h; rfl)

/-- A literal that is read has a fresh name, or the name of what its index resolves to. -/
theorem read_literal_ok {d d' : Decoder} {b rest : Bytes} {width : Nat} {f : Field}
    (h : d.readLiteral b width = (d', .ok (f, rest))) :
    ∃ index b', readInt b width = .ok (index, b') ∧ f.sensitive = false ∧
      ((index = 0 ∧ d' = d ∧ f.unknown = false) ∨
        (index ≠ 0 ∧ ∃ e, d.resolve index = (d', .ok e) ∧ f.name = e.name ∧
          f.unknown = e.unknown)) := by
  unfold readLiteral at h
  split at h
  · cases h
  · next index b' hint =>
      split at h
      · next hzero =>
          split at h
          · cases h
          · obtain ⟨rfl, value, rfl⟩ := read_value_ok h
            exact ⟨index, b', hint, rfl, Or.inl ⟨hzero, rfl, rfl⟩⟩
      · next hindex =>
          split at h
          · cases h
          · next e hresolve =>
              obtain ⟨rfl, value, rfl⟩ := read_value_ok h
              exact ⟨index, b', hint, rfl, Or.inr ⟨hindex, e, hresolve, rfl, rfl⟩⟩

/-- Reading a literal changes at most the count of unresolved references. -/
theorem read_literal_frame {d d' : Decoder} {b : Bytes} {width : Nat}
    {r : Except HpackError (Field × Bytes)} (h : d.readLiteral b width = (d', r)) :
    d' = d ∨ d' = d.countUnresolved := by
  unfold readLiteral at h
  split at h
  · cases h
    exact Or.inl rfl
  · split at h
    · split at h
      · cases h
        exact Or.inl rfl
      · exact Or.inl (read_value_frame h)
    · split at h
      · next hresolve =>
          cases h
          exact resolve_frame hresolve
      · next hresolve =>
          rw [read_value_frame h]
          exact resolve_frame hresolve

/-- The outcomes of one iteration of the decode loop. -/
inductive RepOutcome (d : Decoder) (first : UInt8) (b : Bytes) :
    Decoder → Except HpackError (Option Field × Bytes) → Prop where
  | failed (d' : Decoder) (e : HpackError) :
      d' = d ∨ d' = d.countUnresolved → RepOutcome d first b d' (.error e)
  | indexed (d' : Decoder) (index : Nat) (f : Field) (rest : Bytes) :
      readInt b 7 = .ok (index, rest) → index ≠ 0 → d.resolve index = (d', .ok f) →
      RepOutcome d first b d' (.ok (some f, rest))
  | incremental (d' : Decoder) (f : Field) (rest : Bytes) :
      first &&& 0xc0 = 0x40 → d.readLiteral b 6 = (d', .ok (f, rest)) →
      RepOutcome d first b (d'.insert f) (.ok (some f, rest))
  | sizeUpdate (n : Nat) (rest : Bytes) :
      readInt b 5 = .ok (n, rest) → RepOutcome d first b (d.resize n) (.ok (none, rest))
  | literal (d' : Decoder) (f : Field) (sensitive : Bool) (rest : Bytes) :
      d.readLiteral b 4 = (d', .ok (f, rest)) →
      RepOutcome d first b d' (.ok (some { f with sensitive := sensitive }, rest))

/-- Every iteration has one of these outcomes. -/
theorem decode_rep_cases {d d' : Decoder} {first : UInt8} {b : Bytes}
    {r : Except HpackError (Option Field × Bytes)} (h : d.decodeRep first b = (d', r)) :
    RepOutcome d first b d' r := by
  unfold decodeRep at h
  split at h
  · split at h
    · cases h
      exact .failed _ _ (Or.inl rfl)
    · next index rest hint =>
        split at h
        · cases h
          exact .failed _ _ (Or.inl rfl)
        · next hindex =>
            split at h
            · next hresolve =>
                cases h
                exact .failed _ _ (resolve_frame hresolve)
            · next hresolve =>
                cases h
                exact .indexed _ index _ _ hint hindex hresolve
  · split at h
    · next hpattern =>
        split at h
        · next hlit =>
            cases h
            exact .failed _ _ (read_literal_frame hlit)
        · next hlit =>
            cases h
            exact .incremental _ _ _ hpattern hlit
    · split at h
      · split at h
        · cases h
          exact .failed _ _ (Or.inl rfl)
        · next hint =>
            cases h
            exact .sizeUpdate _ _ hint
      · split at h
        · split at h
          · next hlit =>
              cases h
              exact .failed _ _ (read_literal_frame hlit)
          · next hlit =>
              cases h
              exact .literal _ _ true _ hlit
        · split at h
          · next hlit =>
              cases h
              exact .failed _ _ (read_literal_frame hlit)
          · next f rest hlit =>
              cases h
              have hsensitive : f.sensitive = false := by
                obtain ⟨_, _, _, hs, _⟩ := read_literal_ok hlit
                exact hs
              have heq : f = { f with sensitive := false } := by
                rw [← hsensitive]
              rw [heq]
              exact .literal _ _ false _ hlit

/-! ## Whole header blocks -/

/-- The decoder and the bytes left at the start of every iteration of the loop. -/
def iterations (d : Decoder) (b : Bytes) : List (Decoder × Bytes) :=
  match b with
  | [] => []
  | first :: tail =>
      (d, first :: tail) ::
        match _h : d.decodeRep first (first :: tail) with
        | (_, .error _) => []
        | (d, .ok (_, rest)) => iterations d rest
termination_by b.length
decreasing_by exact decode_rep_length _h

theorem mem_iterations_head (d : Decoder) (first : UInt8) (tail : Bytes) :
    (d, first :: tail) ∈ d.iterations (first :: tail) := by
  rw [iterations]
  exact List.mem_cons_self

/-- The iterations after a successful one are iterations of the whole loop. -/
theorem mem_iterations_of_rest {d d' : Decoder} {first : UInt8} {tail rest : Bytes}
    {f : Option Field} (hrep : d.decodeRep first (first :: tail) = (d', .ok (f, rest)))
    {s : Decoder × Bytes} (hs : s ∈ d'.iterations rest) : s ∈ d.iterations (first :: tail) := by
  rw [iterations]
  refine List.mem_cons_of_mem _ ?_
  split
  · next hrep' =>
      rw [hrep] at hrep'
      cases hrep'
  · next hrep' =>
      rw [hrep] at hrep'
      cases hrep'
      exact hs

@[simp] theorem decode_loop_nil (d : Decoder) (out : List Field) :
    d.decodeLoop [] out = (d, .ok out) := by
  rw [decodeLoop]

/-- A failing iteration ends the loop. -/
theorem decode_loop_of_error {d d' : Decoder} {first : UInt8} {tail : Bytes} {e : HpackError}
    (hrep : d.decodeRep first (first :: tail) = (d', .error e)) (out : List Field) :
    d.decodeLoop (first :: tail) out = (d', .error e) := by
  rw [decodeLoop]
  split
  · next hrep' =>
      rw [hrep] at hrep'
      cases hrep'
      rfl
  · next hrep' =>
      rw [hrep] at hrep'
      cases hrep'

/-- After a successful iteration the loop goes on with the rest. -/
theorem decode_loop_of_ok {d d' : Decoder} {first : UInt8} {tail rest : Bytes} {f : Option Field}
    (hrep : d.decodeRep first (first :: tail) = (d', .ok (f, rest))) (out : List Field) :
    d.decodeLoop (first :: tail) out = d'.decodeLoop rest (out ++ f.toList) := by
  rw [decodeLoop]
  split
  · next hrep' =>
      rw [hrep] at hrep'
      cases hrep'
  · next hrep' =>
      rw [hrep] at hrep'
      cases hrep'
      rfl

/-- A property of the decoder and the fields pushed so far that every guarded iteration keeps
holds when the loop ends; `E` is what a failing iteration leaves. -/
theorem decode_loop_rule {I : Decoder → List Field → Prop} {E : Decoder → Prop}
    {G : Decoder → Bytes → Prop}
    (hfail : ∀ d first tail out d' e, I d out → G d (first :: tail) →
      d.decodeRep first (first :: tail) = (d', .error e) → E d')
    (hstep : ∀ d first tail out d' f rest, I d out → G d (first :: tail) →
      d.decodeRep first (first :: tail) = (d', .ok (f, rest)) → I d' (out ++ f.toList))
    {d d' : Decoder} {b : Bytes} {out : List Field} {r : Except HpackError (List Field)}
    (hguard : ∀ s ∈ d.iterations b, G s.1 s.2) (hinit : I d out)
    (h : d.decodeLoop b out = (d', r)) :
    (∀ e, r = .error e → E d') ∧ (∀ fields, r = .ok fields → I d' fields) := by
  induction d, b, out using decodeLoop.induct generalizing d' r with
  | case1 d out =>
      rw [decode_loop_nil] at h
      cases h
      exact ⟨fun e he => (by cases he), fun fields hf => (by cases hf; exact hinit)⟩
  | case2 d out first tail d₁ e hrep =>
      rw [decode_loop_of_error hrep] at h
      cases h
      have hG := hguard (d, first :: tail) (mem_iterations_head d first tail)
      exact ⟨fun _ _ => hfail d first tail out _ e hinit hG hrep, fun fields hf => by cases hf⟩
  | case3 d out first tail d₁ f rest hrep ih =>
      rw [decode_loop_of_ok hrep] at h
      have hG := hguard (d, first :: tail) (mem_iterations_head d first tail)
      exact ih (fun s hs => hguard s (mem_iterations_of_rest hrep hs))
        (hstep d first tail out _ f rest hinit hG hrep) h

/-- A property of the decoder alone that every guarded iteration keeps, whether it fails or not,
is kept by a whole block. -/
theorem decode_preserves {P : Decoder → Prop} {G : Decoder → Bytes → Prop}
    (hstep : ∀ d first tail, P d → G d (first :: tail) →
      P (d.decodeRep first (first :: tail)).1)
    {d : Decoder} {block : Bytes} (hguard : ∀ s ∈ d.iterations block, G s.1 s.2) (hinit : P d) :
    P (d.decode block).1 := by
  have hany : ∀ d first tail d' r, P d → G d (first :: tail) →
      d.decodeRep first (first :: tail) = (d', r) → P d' := by
    intro d first tail d' r hP hG hrep
    have := hstep d first tail hP hG
    rwa [hrep] at this
  rcases hres : d.decode block with ⟨d', r⟩
  have hrule := decode_loop_rule (I := fun d _ => P d) (E := P)
    (fun d first tail _ d' e => hany d first tail d' _)
    (fun d first tail _ d' f rest => hany d first tail d' _) hguard hinit hres
  cases r with
  | error e => exact hrule.1 e rfl
  | ok fields => exact hrule.2 fields rfl

/-- A property that insertion, resizing and the count of unresolved references keep is kept by
every iteration. -/
theorem decode_rep_preserves {P : Decoder → Prop}
    (hcount : ∀ d, P d → P d.countUnresolved) (hinsert : ∀ d f, P d → P (d.insert f))
    (hresize : ∀ d n, P d → P (d.resize n)) {d : Decoder} {first : UInt8} {b : Bytes} (hd : P d) :
    P (d.decodeRep first b).1 := by
  have hframe : ∀ d', d' = d ∨ d' = d.countUnresolved → P d' := by
    rintro d' (rfl | rfl)
    · exact hd
    · exact hcount d hd
  rcases hrep : d.decodeRep first b with ⟨d', r⟩
  cases decode_rep_cases hrep with
  | failed d' e hd' => exact hframe _ hd'
  | indexed d' index f rest hint hindex hresolve => exact hframe _ (resolve_frame hresolve)
  | incremental d' f rest hpattern hlit => exact hinsert _ _ (hframe _ (read_literal_frame hlit))
  | sizeUpdate n rest hint => exact hresize _ _ hd
  | literal d' f sensitive rest hlit => exact hframe _ (read_literal_frame hlit)

end H2Tap.Decoder
