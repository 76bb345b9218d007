import Guardwatch.Lib.SlotTable
import Mathlib.Data.Finset.Card
import Mathlib.Data.Finset.Range
import Mathlib.Data.Nat.ModEq

/-! Hash tables with linear probing over a bounded chain. A table has `size` slots, each empty or
with an entry; an entry of key `k` lies in one of the `chain` slots from `hash k` on, cyclically. -/

universe u v

namespace LinearProbe

/-- The first slot, of the `n` slots from `curr` on, where `stop` holds. -/
def scan (size : Nat) (stop : Nat → Bool) : Nat → Nat → Option Nat
  | 0, _ => none
  | n + 1, curr => if stop curr then some curr else scan size stop n ((curr + 1) % size)

theorem scan_spec {size : Nat} (stop : Nat → Bool) (n curr : Nat) (inside : curr < size) :
    match scan size stop n curr with
    | some i => i < size ∧ stop i = true ∧ ∃ j < n, (curr + j) % size = i ∧
        ∀ j' < j, stop ((curr + j') % size) = false
    | none => ∀ j < n, stop ((curr + j) % size) = false := by
  induction n generalizing curr with
  | zero => simp [scan]
  | succ n ih =>
    have here : (curr + 0) % size = curr := Nat.mod_eq_of_lt inside
    have shift : ∀ j, ((curr + 1) % size + j) % size = (curr + (j + 1)) % size := fun j => by
      rw [Nat.mod_add_mod]
      congr 1
      omega
    have tail := ih ((curr + 1) % size) (Nat.mod_lt _ (by omega))
    rw [scan]
    by_cases stops : stop curr = true
    · rw [if_pos stops]
      exact ⟨inside, stops, 0, by omega, here, fun _ h => absurd h (by omega)⟩
    · rw [if_neg stops]
      have stops : stop curr = false := by simpa using stops
      cases found : scan size stop n ((curr + 1) % size) with
      | some i =>
        rw [found] at tail
        obtain ⟨below, stop_i, j, hj, at_j, before⟩ := tail
        refine ⟨below, stop_i, j + 1, by omega, (shift j).symm.trans at_j, fun j' hj' => ?_⟩
        cases j' with
        | zero => rw [here]; exact stops
        | succ j' => rw [← shift j']; exact before j' (by omega)
      | none =>
        rw [found] at tail
        intro j hj
        cases j with
        | zero => rw [here]; exact stops
        | succ j => rw [← shift j]; exact tail j (by omega)

/-- The first slot where `stop` holds is the one that is found. -/
theorem scan_eq {size n curr j : Nat} {stop : Nat → Bool} (inside : curr < size) (short : j < n)
    (stops : stop ((curr + j) % size) = true)
    (before : ∀ j' < j, stop ((curr + j') % size) = false) :
    scan size stop n curr = some ((curr + j) % size) := by
  have found := scan_spec stop n curr inside
  cases eq : scan size stop n curr with
  | none =>
    rw [eq] at found
    rw [found j short] at stops
    cases stops
  | some i =>
    rw [eq] at found
    obtain ⟨-, stop_i, j₁, -, rfl, before₁⟩ := found
    rcases Nat.lt_trichotomy j₁ j with less | rfl | more
    · rw [before j₁ less] at stop_i
      cases stop_i
    · rfl
    · rw [before₁ j more] at stops
      cases stops

variable {κ : Type u} {ν : Type v}

/-- The slot that the `j`-th probe for `k` reads. -/
def probe (size : Nat) (hash : κ → Nat) (k : κ) (j : Nat) : Nat := (hash k + j) % size

/-- The slots hold the dictionary `d`, each entry in a slot that the probes for its key reach. -/
structure Represents (size chain : Nat) (hash : κ → Nat) (slots : Nat → Option (κ × ν))
    (d : κ → Option ν) : Prop extends SlotTable.Stores size slots d where
  placed : ∀ i < size, ∀ k v, slots i = some (k, v) → ∃ j < chain, probe size hash k j = i

/-- No empty slot comes before an entry in the probes for its key. -/
def Packed (size chain : Nat) (hash : κ → Nat) (slots : Nat → Option (κ × ν)) : Prop :=
  ∀ i < size, ∀ k v, slots i = some (k, v) →
    ∃ j < chain, probe size hash k j = i ∧ ∀ j' < j, slots (probe size hash k j') ≠ none

variable {size chain : Nat} {hash : κ → Nat} {slots : Nat → Option (κ × ν)} {d : κ → Option ν}

theorem represents_clear (clear : ∀ i < size, slots i = none) :
    Represents size chain hash slots (fun _ : κ => (none : Option ν)) := by
  refine ⟨SlotTable.stores_clear clear, fun i inside k v at_i => ?_⟩
  rw [clear i inside] at at_i
  cases at_i

theorem packed_clear (clear : ∀ i < size, slots i = none) : Packed size chain hash slots := by
  intro i inside k v at_i
  rw [clear i inside] at at_i
  cases at_i

/-- The probes for a key read different slots, as long as there are so many. -/
theorem probe_injOn (short : chain ≤ size) (k : κ) {j j' : Nat} (below : j < chain)
    (below' : j' < chain) (same : probe size hash k j = probe size hash k j') : j = j' := by
  have equal : j % size = j' % size := Nat.ModEq.add_left_cancel' (hash k) same
  rwa [Nat.mod_eq_of_lt (by omega), Nat.mod_eq_of_lt (by omega)] at equal

/-- There are no more keys of one hash than slots in a chain. -/
theorem Represents.card_le (r : Represents size chain hash slots d) {keys : Finset κ}
    (stored : ∀ k ∈ keys, d k ≠ none) {h : Nat} (same : ∀ k ∈ keys, hash k = h) :
    keys.card ≤ chain := by
  have place : ∀ k : κ, ∃ j, k ∈ keys → j < chain ∧ ∃ v, slots ((h + j) % size) = some (k, v) := by
    intro k
    by_cases member : k ∈ keys
    · obtain ⟨v, at_k⟩ := Option.ne_none_iff_exists'.mp (stored k member)
      obtain ⟨i, inside, at_i⟩ := (r.agrees k v).mp at_k
      obtain ⟨j, short, at_j⟩ := r.placed i inside k v at_i
      rw [probe, same k member] at at_j
      exact ⟨j, fun _ => ⟨short, v, at_j ▸ at_i⟩⟩
    · exact ⟨0, fun there => absurd there member⟩
  choose f placed using place
  rw [← Finset.card_range chain]
  refine Finset.card_le_card_of_injOn f (fun k member => ?_) fun k member k' member' equal => ?_
  · exact Finset.mem_coe.mpr (Finset.mem_range.mpr (placed k member).1)
  · obtain ⟨-, v, at_k⟩ := placed k member
    obtain ⟨-, v', at_k'⟩ := placed k' member'
    rw [equal, at_k'] at at_k
    cases at_k
    rfl

variable [DecidableEq κ]

/-- One of the probes for a key reads an empty slot or the key's own, where fewer other keys have
chains that meet them. -/
theorem Represents.exists_open (r : Represents size chain hash slots d) (positive : 0 < size)
    {keys : Finset κ} (stored : ∀ i < size, ∀ k v, slots i = some (k, v) → k ∈ keys) {k : κ}
    {probes : Finset Nat} (short : chain ≤ size) (within : ∀ j ∈ probes, j < chain)
    (few : ((keys.erase k).filter fun k' =>
      ∃ j ∈ probes, ∃ j' < chain, probe size hash k' j' = probe size hash k j).card < probes.card) :
    ∃ j ∈ probes, ∀ k' v, slots (probe size hash k j) = some (k', v) → k' = k := by
  by_contra taken
  push Not at taken
  have other : ∀ j, ∃ k', j ∈ probes →
      k' ≠ k ∧ ∃ v, slots (probe size hash k j) = some (k', v) := by
    intro j
    by_cases member : j ∈ probes
    · obtain ⟨k', v, at_j, apart⟩ := taken j member
      exact ⟨k', fun _ => ⟨apart, v, at_j⟩⟩
    · exact ⟨k, fun there => absurd there member⟩
  choose f held using other
  refine absurd few (Nat.not_lt.mpr ?_)
  refine Finset.card_le_card_of_injOn f (fun j member => ?_) fun j member j' member' equal => ?_
  · obtain ⟨apart, v, at_j⟩ := held j member
    have inside : probe size hash k j < size := Nat.mod_lt _ positive
    have reached := r.placed _ inside (f j) v at_j
    exact Finset.mem_coe.mpr (Finset.mem_filter.mpr
      ⟨Finset.mem_erase.mpr ⟨apart, stored _ inside _ v at_j⟩, j, member, reached⟩)
  · obtain ⟨-, v, at_j⟩ := held j member
    obtain ⟨-, v', at_j'⟩ := held j' member'
    rw [← equal] at at_j'
    exact probe_injOn short k (within j member) (within j' member')
      (r.unique _ (Nat.mod_lt _ positive) _ (Nat.mod_lt _ positive) _ _ _ at_j at_j')

/-- An entry written to a slot its key's probes reach, over nothing or over the key's old entry. -/
theorem Represents.store (r : Represents size chain hash slots d) {i : Nat} {k : κ} (v : ν)
    (inside : i < size) (placed : ∃ j < chain, probe size hash k j = i)
    (written : ∀ k' v', slots i = some (k', v') → k' = k)
    (only : ∀ i' < size, i' ≠ i → ∀ v', slots i' ≠ some (k, v')) :
    Represents size chain hash (Function.update slots i (some (k, v)))
      (Function.update d k (some v)) := by
  refine ⟨r.toStores.store v inside written only, fun i₁ h₁ k₁ v₁ at₁ => ?_⟩
  by_cases same : i₁ = i
  · subst same
    rw [Function.update_self] at at₁
    cases at₁
    exact placed
  · rw [Function.update_of_ne same] at at₁
    exact r.placed i₁ h₁ k₁ v₁ at₁

theorem Represents.erase (r : Represents size chain hash slots d) {i : Nat} {k : κ} {v : ν}
    (inside : i < size) (at_i : slots i = some (k, v)) :
    Represents size chain hash (Function.update slots i none) (Function.update d k none) :=
  ⟨r.toStores.erase inside at_i, fun i₁ h₁ k₁ v₁ at₁ =>
    r.placed i₁ h₁ k₁ v₁ (SlotTable.of_update_none at₁).2⟩

omit [DecidableEq κ] in
/-- An entry written to the first slot of its probes that is empty or has its key. -/
theorem Packed.store (p : Packed size chain hash slots) {i j : Nat} {k : κ} (v : ν) (short : j < chain)
    (at_j : probe size hash k j = i) (before : ∀ j' < j, slots (probe size hash k j') ≠ none) :
    Packed size chain hash (Function.update slots i (some (k, v))) := by
  have filled : ∀ i₁, slots i₁ ≠ none → Function.update slots i (some (k, v)) i₁ ≠ none := by
    intro i₁ h
    by_cases same : i₁ = i
    · subst same
      rw [Function.update_self]
      exact nofun
    · rwa [Function.update_of_ne same]
  intro i₁ h₁ k₁ v₁ at₁
  by_cases same : i₁ = i
  · subst same
    rw [Function.update_self] at at₁
    cases at₁
    exact ⟨j, short, at_j, fun j' hj' => filled _ (before j' hj')⟩
  · rw [Function.update_of_ne same] at at₁
    obtain ⟨j₁, hj₁, at_j₁, before₁⟩ := p i₁ h₁ k₁ v₁ at₁
    exact ⟨j₁, hj₁, at_j₁, fun j' hj' => filled _ (before₁ j' hj')⟩

end LinearProbe
