import Mathlib.Data.List.Basic
import Mathlib.Logic.Function.Basic

/-! Tables of slots as dictionaries: `size` slots, each empty or with an entry, where no two entries
have the same key. -/

universe u v

namespace SlotTable

variable {κ : Type u} {ν : Type v}

/-- The slots hold the dictionary `d`: each of its entries in one slot, and nothing else. -/
structure Stores (size : Nat) (slots : Nat → Option (κ × ν)) (d : κ → Option ν) : Prop where
  unique : ∀ i < size, ∀ i' < size, ∀ k v v', slots i = some (k, v) → slots i' = some (k, v') →
    i = i'
  agrees : ∀ k v, d k = some v ↔ ∃ i < size, slots i = some (k, v)

variable {size : Nat} {slots : Nat → Option (κ × ν)} {d : κ → Option ν}

theorem stores_clear (clear : ∀ i < size, slots i = none) :
    Stores size slots (fun _ : κ => (none : Option ν)) := by
  refine ⟨fun i inside _ _ k v _ at_i => ?_, fun k v => ⟨nofun, ?_⟩⟩
  · rw [clear i inside] at at_i
    cases at_i
  · rintro ⟨i, inside, at_i⟩
    rw [clear i inside] at at_i
    cases at_i

theorem Stores.absent (r : Stores size slots d) {k : κ} :
    d k = none ↔ ∀ i < size, ∀ v, slots i ≠ some (k, v) := by
  constructor
  · intro h i hi v at_i
    have := (r.agrees k v).mpr ⟨i, hi, at_i⟩
    rw [h] at this
    cases this
  · intro h
    cases hd : d k with
    | none => rfl
    | some v =>
      obtain ⟨i, hi, at_i⟩ := (r.agrees k v).mp hd
      exact absurd at_i (h i hi v)

variable [DecidableEq κ]

/-- An entry written to a slot, over nothing or over the key's old entry. -/
theorem Stores.store (r : Stores size slots d) {i : Nat} {k : κ} (v : ν)
    (inside : i < size)
    (written : ∀ k' v', slots i = some (k', v') → k' = k)
    (only : ∀ i' < size, i' ≠ i → ∀ v', slots i' ≠ some (k, v')) :
    Stores size (Function.update slots i (some (k, v)))
      (Function.update d k (some v)) := by
  refine ⟨fun i₁ h₁ i₂ h₂ k₁ v₁ v₂ at₁ at₂ => ?_, fun k₁ v₁ => ?_⟩
  · by_cases same₁ : i₁ = i <;> by_cases same₂ : i₂ = i
    · rw [same₁, same₂]
    · subst same₁
      rw [Function.update_self] at at₁
      cases at₁
      rw [Function.update_of_ne same₂] at at₂
      exact absurd at₂ (only i₂ h₂ same₂ v₂)
    · subst same₂
      rw [Function.update_self] at at₂
      cases at₂
      rw [Function.update_of_ne same₁] at at₁
      exact absurd at₁ (only i₁ h₁ same₁ v₁)
    · rw [Function.update_of_ne same₁] at at₁
      rw [Function.update_of_ne same₂] at at₂
      exact r.unique i₁ h₁ i₂ h₂ k₁ v₁ v₂ at₁ at₂
  · by_cases same : k₁ = k
    · subst same
      rw [Function.update_self]
      constructor
      · rintro h
        cases h
        exact ⟨i, inside, by rw [Function.update_self]⟩
      · rintro ⟨i₁, h₁, at₁⟩
        by_cases here : i₁ = i
        · subst here
          rw [Function.update_self] at at₁
          cases at₁
          rfl
        · rw [Function.update_of_ne here] at at₁
          exact absurd at₁ (only i₁ h₁ here v₁)
    · rw [Function.update_of_ne same, r.agrees]
      refine exists_congr fun i₁ => and_congr_right fun _ => ?_
      by_cases here : i₁ = i
      · subst here
        rw [Function.update_self]
        refine ⟨fun h => absurd (written k₁ v₁ h) same, fun h => ?_⟩
        cases h
        exact absurd rfl same
      · rw [Function.update_of_ne here]

omit [DecidableEq κ] in
theorem of_update_none {i i₁ : Nat} {k : κ} {v : ν}
    (at₁ : Function.update slots i none i₁ = some (k, v)) : i₁ ≠ i ∧ slots i₁ = some (k, v) := by
  by_cases same : i₁ = i
  · subst same
    rw [Function.update_self] at at₁
    cases at₁
  · rw [Function.update_of_ne same] at at₁
    exact ⟨same, at₁⟩

theorem Stores.erase (r : Stores size slots d) {i : Nat} {k : κ} {v : ν}
    (inside : i < size) (at_i : slots i = some (k, v)) :
    Stores size (Function.update slots i none) (Function.update d k none) := by
  refine ⟨fun i₁ h₁ i₂ h₂ k₁ v₁ v₂ at₁ at₂ =>
      r.unique i₁ h₁ i₂ h₂ k₁ v₁ v₂ (of_update_none at₁).2 (of_update_none at₂).2,
    fun k₁ v₁ => ?_⟩
  by_cases same : k₁ = k
  · subst same
    rw [Function.update_self]
    refine ⟨nofun, ?_⟩
    rintro ⟨i₁, h₁, at₁⟩
    obtain ⟨ne, at₁⟩ := of_update_none at₁
    exact absurd (r.unique i₁ h₁ i inside k₁ v₁ v at₁ at_i) ne
  · rw [Function.update_of_ne same, r.agrees]
    refine exists_congr fun i₁ => and_congr_right fun _ => ?_
    by_cases here : i₁ = i
    · subst here
      rw [Function.update_self, at_i]
      refine ⟨fun h => ?_, nofun⟩
      cases h
      exact absurd rfl same
    · rw [Function.update_of_ne here]

/-- The dictionary `d` with the entries of the listed slots put into it in turn. -/
def reinsert (slots : Nat → Option (κ × ν)) : List Nat → (κ → Option ν) → κ → Option ν
  | [], d => d
  | i :: rest, d =>
    match slots i with
    | some (k, v) => reinsert slots rest (Function.update d k (some v))
    | none => reinsert slots rest d

theorem reinsert_apply (r : Stores size slots d) (listed : List Nat)
    (inside : ∀ i ∈ listed, i < size) (e : κ → Option ν) (k : κ) (v : ν) :
    reinsert slots listed e k = some v ↔
      (∃ i ∈ listed, slots i = some (k, v)) ∨
        (∀ i ∈ listed, ∀ v', slots i ≠ some (k, v')) ∧ e k = some v := by
  induction listed generalizing e with
  | nil => simp [reinsert]
  | cons i rest ih =>
    have ih := ih fun i' h => inside i' (List.mem_cons_of_mem _ h)
    rw [reinsert]
    cases at_i : slots i with
    | none => simp [ih, at_i]
    | some entry =>
      obtain ⟨k₁, v₁⟩ := entry
      simp only [ih, List.mem_cons, exists_eq_or_imp, forall_eq_or_imp, at_i, Option.some.injEq,
        Prod.mk.injEq]
      by_cases same : k = k₁
      · subst same
        have only : ∀ i' ∈ rest, ∀ v', slots i' = some (k, v') → v' = v₁ := by
          intro i' h v' at_i'
          have := r.unique i' (inside i' (List.mem_cons_of_mem _ h)) i (inside i (by simp)) k v' v₁
            at_i' at_i
          subst this
          rw [at_i'] at at_i
          cases at_i
          rfl
        rw [Function.update_self]
        constructor
        · rintro (⟨i', h, at_i'⟩ | ⟨-, h⟩)
          · exact .inl (.inr ⟨i', h, at_i'⟩)
          · exact .inl (.inl ⟨rfl, by simpa using h⟩)
        · rintro ((⟨-, rfl⟩ | ⟨i', h, at_i'⟩) | ⟨⟨h, -⟩, -⟩)
          · by_cases again : ∃ i' ∈ rest, slots i' = some (k, v₁)
            · exact .inl again
            · refine .inr ⟨fun i' h v' at_i' => again ⟨i', h, ?_⟩, rfl⟩
              rw [at_i', only i' h v' at_i']
          · exact .inl ⟨i', h, at_i'⟩
          · exact (h v₁ rfl).elim
      · rw [Function.update_of_ne same]
        simp [Ne.symm same]

/-- Putting every entry of the slots into an empty dictionary gives the dictionary they hold. -/
theorem reinsert_all (r : Stores size slots d) :
    reinsert slots (List.range size) (fun _ => none) = d := by
  have holds : ∀ k v, reinsert slots (List.range size) (fun _ => none) k = some v ↔
      d k = some v := fun k v => by
    rw [reinsert_apply r _ (by simp), r.agrees]
    simp
  funext k
  cases h : d k with
  | some v => exact (holds k v).mpr h
  | none =>
    cases h' : reinsert slots (List.range size) (fun _ => none) k with
    | none => rfl
    | some v => rw [(holds k v).mp h'] at h; cases h

end SlotTable
