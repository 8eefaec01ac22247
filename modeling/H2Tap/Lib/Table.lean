import Mathlib

/-!
# Finite maps

A finite map is an association list with distinct keys. Mathlib has lookup, insertion and removal;
`update` replaces or drops every value at once.
-/

namespace H2Tap.Lib

/-- A finite map from `κ` to `ν`. -/
abbrev Table (κ ν : Type*) := AList fun _ : κ => ν

namespace Table

variable {κ ν : Type*}

/-- The values, in some order. -/
def values (m : Table κ ν) : List ν := m.entries.map Sigma.snd

/-- Replace every value, or drop it. -/
def update (f : ν → Option ν) (m : Table κ ν) : Table κ ν where
  entries := m.entries.filterMap fun e => (f e.2).map fun v => ⟨e.1, v⟩
  nodupKeys := by
    have hsub : ((m.entries.filterMap fun e => (f e.2).map fun v => (⟨e.1, v⟩ : Σ _ : κ, ν)).map
        Sigma.fst).Sublist (m.entries.map Sigma.fst) := by
      induction m.entries with
      | nil => exact List.Sublist.slnil
      | cons e es ih =>
          cases hf : f e.2 with
          | none =>
              simp only [List.filterMap_cons, hf, Option.map_none, List.map_cons]
              exact ih.cons _
          | some v =>
              simp only [List.filterMap_cons, hf, Option.map_some, List.map_cons]
              exact ih.cons_cons _
    exact hsub.nodup m.nodupKeys

variable [DecidableEq κ]

theorem lookup_update (f : ν → Option ν) (m : Table κ ν) (k : κ) :
    (m.update f).lookup k = (m.lookup k).bind f := by
  ext v
  have hnew : v ∈ (m.update f).lookup k ↔ ⟨k, v⟩ ∈ (m.update f).entries := AList.mem_lookup_iff
  have hold : ∀ w, w ∈ m.lookup k ↔ ⟨k, w⟩ ∈ m.entries := fun w => AList.mem_lookup_iff
  rw [← Option.mem_def, ← Option.mem_def, hnew, Option.mem_bind_iff]
  simp only [update, List.mem_filterMap, Option.map_eq_some_iff, hold, Option.mem_def]
  constructor
  · rintro ⟨⟨k', w⟩, hw, v', hf, heq⟩
    cases heq
    exact ⟨w, hw, hf⟩
  · rintro ⟨w, hw, hf⟩
    exact ⟨⟨k, w⟩, hw, v, hf, rfl⟩

/-- Removing a key before it is inserted makes no difference. -/
theorem insert_erase (m : Table κ ν) (k : κ) (v : ν) : (m.erase k).insert k v = m.insert k v := by
  ext1
  simp only [AList.entries_insert, AList.erase,
    List.kerase_of_notMem_keys (List.notMem_keys_kerase k m.nodupKeys)]

/-- Removing a key that is not there changes nothing. -/
theorem erase_of_none {m : Table κ ν} {k : κ} (h : m.lookup k = none) : m.erase k = m := by
  ext1
  exact List.kerase_of_notMem_keys (AList.lookup_eq_none.mp h)

/-- A key that was there keeps its place among the keys, up to their order. -/
theorem keys_insert_of_some {m : Table κ ν} {k : κ} {v : ν} (h : m.lookup k = some v) (w : ν) :
    (m.insert k w).keys.Perm m.keys := by
  have hmem : k ∈ m.keys := AList.lookup_isSome.mp (by rw [h]; rfl)
  rw [AList.keys_insert]
  exact (List.perm_cons_erase hmem).symm

/-- A new key is added. -/
theorem keys_insert_of_none {m : Table κ ν} {k : κ} (h : m.lookup k = none) (w : ν) :
    (m.insert k w).keys = k :: m.keys := by
  have hfresh : k ∉ m.keys := fun hmem => by
    have hsome := AList.lookup_isSome.mpr hmem
    simp [h] at hsome
  rw [AList.keys_insert, List.erase_of_not_mem hfresh]

/-- How many entries there are without a key, and with a new value under it. -/
theorem length_insert (m : Table κ ν) (k : κ) (v : ν) :
    (m.insert k v).entries.length = (m.erase k).entries.length + 1 := by
  rw [AList.entries_insert, List.length_cons]
  rfl

theorem length_erase_of_some {m : Table κ ν} {k : κ} {v : ν} (h : m.lookup k = some v) :
    (m.erase k).entries.length + 1 = m.entries.length := by
  have hkeys : ∀ m : Table κ ν, m.keys.length = m.entries.length := fun m => List.length_map _
  rw [← length_insert m k v, ← hkeys, ← hkeys]
  exact (keys_insert_of_some h v).length_eq

theorem length_erase_le (m : Table κ ν) (k : κ) :
    (m.erase k).entries.length ≤ m.entries.length :=
  (List.kerase_sublist k m.entries).length_le

/-- What holds of all entries holds of all that can be looked up. -/
theorem forall_lookup_iff {m : Table κ ν} {P : κ → ν → Prop} :
    (∀ k v, m.lookup k = some v → P k v) ↔ ∀ e ∈ m.entries, P e.1 e.2 :=
  ⟨fun h e he => h e.1 e.2 (AList.mem_lookup_iff.mpr he),
    fun h k v hlookup => h ⟨k, v⟩ (AList.mem_lookup_iff.mp hlookup)⟩

/-- What holds of the old entries and of a new one holds of all that can be looked up. -/
theorem lookup_insert_rule {m : Table κ ν} {k : κ} {v : ν} {P : κ → ν → Prop} (hnew : P k v)
    (hold : ∀ k' v', m.lookup k' = some v' → P k' v') (k' : κ) (v' : ν)
    (h : (m.insert k v).lookup k' = some v') : P k' v' := by
  by_cases hk : k' = k
  · rw [hk, AList.lookup_insert] at h
    rw [hk, ← Option.some.inj h]
    exact hnew
  · rw [AList.lookup_insert_ne hk] at h
    exact hold k' v' h

/-- The keys after an insertion. -/
theorem isSome_lookup_insert (m : Table κ ν) (k : κ) (v : ν) (k' : κ) :
    ((m.insert k v).lookup k').isSome = (decide (k' = k) || (m.lookup k').isSome) := by
  by_cases hk : k' = k
  · rw [hk, AList.lookup_insert, decide_eq_true rfl]
    rfl
  · rw [AList.lookup_insert_ne hk, decide_eq_false hk, Bool.false_or]

/-! ## Sums over the values -/

variable (f : ν → Nat)

/-- The sum of a function over the values. -/
def total (m : Table κ ν) : Nat := (m.values.map f).sum

omit [DecidableEq κ] in
@[simp] theorem total_empty : total f (∅ : Table κ ν) = 0 := rfl

theorem total_insert (m : Table κ ν) (k : κ) (v : ν) :
    total f (m.insert k v) = f v + total f (m.erase k) := by
  simp [total, values, AList.entries_insert, AList.erase]

/-- The value of a key and the other values. -/
theorem total_eq_lookup_add (m : Table κ ν) (k : κ) :
    total f m = ((m.lookup k).elim 0 f) + total f (m.erase k) := by
  have hentries : ∀ es : List (Σ _ : κ, ν), (es.map (f ∘ Sigma.snd)).sum =
      ((es.dlookup k).elim 0 f) + ((es.kerase k).map (f ∘ Sigma.snd)).sum := by
    intro es
    induction es with
    | nil => simp
    | cons e es ih =>
        obtain ⟨k', v⟩ := e
        by_cases hk : k = k'
        · subst hk
          simp
        · have herase : (⟨k', v⟩ :: es : List (Σ _ : κ, ν)).kerase k = ⟨k', v⟩ :: es.kerase k :=
            List.kerase_cons_ne hk
          rw [herase, List.dlookup_cons_ne es ⟨k', v⟩ hk]
          simp only [List.map_cons, List.sum_cons, ih, Function.comp]
          omega
  simpa [total, values, AList.lookup, AList.erase] using hentries m.entries

/-- A sum over the values is 0 if every value counts 0. -/
theorem total_eq_zero {m : Table κ ν} (h : ∀ k v, m.lookup k = some v → f v = 0) :
    total f m = 0 := by
  rw [total, List.sum_eq_zero]
  intro n hn
  obtain ⟨v, hv, rfl⟩ := List.mem_map.mp hn
  obtain ⟨e, he, rfl⟩ := List.mem_map.mp hv
  exact forall_lookup_iff.mp h e he

/-- A sum over the values, each of which counts at most `n`. -/
theorem total_le {m : Table κ ν} {n : Nat} (h : ∀ k v, m.lookup k = some v → f v ≤ n) :
    total f m ≤ n * m.entries.length := by
  have hsum := List.sum_le_card_nsmul (m.values.map f) n fun x hx => by
    obtain ⟨v, hv, rfl⟩ := List.mem_map.mp hx
    obtain ⟨e, he, rfl⟩ := List.mem_map.mp hv
    exact forall_lookup_iff.mp h e he
  rw [List.length_map, values, List.length_map, smul_eq_mul, Nat.mul_comm] at hsum
  exact hsum

end Table

end H2Tap.Lib
