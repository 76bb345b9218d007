import Guardwatch.Gfc.MapSize
import Guardwatch.Lib.Recorder

/-! Iteration over a map: the calls of the callback, and the map that is left. -/

namespace Guardwatch

open Recording Labelled

variable {α : Type}

/-- What the callback returns, which may be different for each slot. -/
abbrev Resolve (α : Type) := Nat → MapKey → Option α → Nat

def clearElement (i : Nat) (map : GfcMap α) : GfcMap α :=
  { map with data := Function.update map.data i { map.data i with inUse := 0, data := none } }

/-- The loop of `gfc_map_iterate` over the slots that it has yet to visit, with a record of each call
of the callback. -/
def iterateElements (resolve : Resolve α) :
    List Nat → Recorder (MapKey × Option α) (GfcMap α) Nat
  | [] => pure gfcErrorMapOk
  | i :: rest => do
    let map ← look
    writes (fun map => ((map.data i).key, (map.data i).data)) (clearElement i)
    let status := resolve i (map.data i).key (map.data i).data
    if status ≠ gfcErrorMapOk then return status
    else iterateElements resolve rest

/-- The size is unsigned, so it is at most 0 where it is 0. -/
def gfcMapIterate (resolve : Resolve α) : Recorder (MapKey × Option α) (GfcMap α) Nat := do
  let map ← look
  if gfcMapSize map = 0 then return gfcErrorMapMissing
  else iterateElements resolve (List.range map.tableSize)

/-- The associations of a map, in the order of its slots. -/
def GfcMap.associations (map : GfcMap α) : List (MapKey × Option α) :=
  (List.range map.tableSize).filterMap map.slots

@[simp] theorem tableSize_clearElement (i : Nat) (map : GfcMap α) :
    (clearElement i map).tableSize = map.tableSize := rfl

@[simp] theorem size_clearElement (i : Nat) (map : GfcMap α) :
    (clearElement i map).size = map.size := rfl

theorem slots_clearElement (i : Nat) (map : GfcMap α) :
    (clearElement i map).slots = Function.update map.slots i none := by
  funext j
  by_cases same : j = i
  · subst same
    simp [GfcMap.slots, clearElement]
  · simp [GfcMap.slots, clearElement, same]

/-- The callback gets the key and the data of every slot listed, in use or not, and the slots are
left unused. -/
theorem iterateElements_visits {resolve : Resolve α}
    (resolves : ∀ i key data, resolve i key data = gfcErrorMapOk) {visit : List Nat}
    (once : visit.Nodup) (map : GfcMap α) :
    ((iterateElements resolve visit).run map).records =
        visit.map (fun i => ((map.data i).key, (map.data i).data)) ∧
      ((iterateElements resolve visit).run map).state.tableSize = map.tableSize ∧
      ((iterateElements resolve visit).run map).state.size = map.size ∧
      ∀ i, ((iterateElements resolve visit).run map).state.slots i =
        if i ∈ visit then none else map.slots i := by
  induction visit generalizing map with
  | nil => exact ⟨rfl, rfl, rfl, fun _ => rfl⟩
  | cons i rest ih =>
    obtain ⟨new, once⟩ := List.nodup_cons.mp once
    obtain ⟨records, tableSize, size, slots⟩ := ih once (clearElement i map)
    have later : ∀ j ∈ rest, (clearElement i map).data j = map.data j := by
      intro j member
      have other : j ≠ i := by
        rintro rfl
        exact new member
      simp [clearElement, other]
    refine ⟨?_, ?_, ?_, fun j => ?_⟩
    · simp only [iterateElements, run_bind, run_look, run_writes, resolves, ne_eq,
        not_true_eq_false, ↓reduceIte, records, List.nil_append, List.map_cons, List.cons_append]
      congr 1
      exact List.map_congr_left fun j member => by rw [later j member]
    · simpa [iterateElements, resolves] using tableSize
    · simpa [iterateElements, resolves] using size
    · have at_j := slots j
      rw [slots_clearElement] at at_j
      simp only [iterateElements, run_bind, run_look, run_writes, resolves, ne_eq,
        not_true_eq_false, ↓reduceIte, at_j, List.mem_cons]
      by_cases member : j ∈ rest
      · simp [member]
      · by_cases same : j = i
        · simp [same]
        · simp [member, same]

/-- The callback is called once for each association and for nothing else, and the map has the same
associations afterwards, with the counter at their number. -/
structure IteratesElements (resolve : Resolve α) (map : GfcMap α) : Prop where
  calls : ((gfcMapIterate resolve).run map).records.Perm map.associations
  kept : ((gfcMapIterate resolve).run map).state.associations.Perm map.associations
  size : (gfcMapSize ((gfcMapIterate resolve).run map).state).toNat = map.associations.length

theorem associations_eq_nil {map : GfcMap α} :
    map.associations = [] ↔ ∀ i < map.tableSize, (map.data i).inUse ≠ 1 := by
  simp [GfcMap.associations, List.filterMap_eq_nil_iff, slots_eq_none]

theorem gfcMapIterate_empty {map : GfcMap α} (resolve : Resolve α) (empty : gfcMapSize map = 0) :
    (gfcMapIterate resolve).run map = ⟨gfcErrorMapMissing, map, []⟩ := by
  simp [gfcMapIterate, empty]

/-- A map that is not empty has no association after the iteration, and the callback was called for
every slot. -/
theorem gfcMapIterate_clears {map : GfcMap α} {resolve : Resolve α}
    (resolves : ∀ i key data, resolve i key data = gfcErrorMapOk) (filled : gfcMapSize map ≠ 0) :
    ((gfcMapIterate resolve).run map).records.length = map.tableSize ∧
      ((gfcMapIterate resolve).run map).state.associations = [] := by
  obtain ⟨records, tableSize, -, slots⟩ :=
    iterateElements_visits resolves (List.nodup_range (n := map.tableSize)) map
  have run : (gfcMapIterate resolve).run map =
      (iterateElements resolve (List.range map.tableSize)).run map := by
    simp [gfcMapIterate, filled]
  rw [run]
  refine ⟨by rw [records, List.length_map, List.length_range], ?_⟩
  rw [GfcMap.associations, List.filterMap_eq_nil_iff]
  intro i member
  rw [tableSize] at member
  rw [slots i, if_pos member]

/-- Iteration visits the elements of a map and keeps them if and only if there are none. -/
theorem iteratesElements_iff {map : GfcMap α} (positive : 0 < map.tableSize) {resolve : Resolve α}
    (resolves : ∀ i key data, resolve i key data = gfcErrorMapOk) :
    IteratesElements resolve map ↔
      gfcMapSize map = 0 ∧ ∀ i < map.tableSize, (map.data i).inUse ≠ 1 := by
  rw [← associations_eq_nil]
  constructor
  · intro iterates
    by_cases empty : gfcMapSize map = 0
    · have calls := iterates.calls
      rw [gfcMapIterate_empty resolve empty] at calls
      exact ⟨empty, calls.nil_eq.symm⟩
    · obtain ⟨visited, cleared⟩ := gfcMapIterate_clears resolves empty
      have kept := iterates.kept
      rw [cleared] at kept
      have calls := iterates.calls.length_eq
      rw [visited, ← kept.nil_eq, List.length_nil] at calls
      omega
  · rintro ⟨empty, unused⟩
    have run := gfcMapIterate_empty resolve empty
    refine ⟨?_, ?_, ?_⟩
    · rw [run, unused]
    · rw [run]
    · rw [run, unused, empty]
      rfl

/-- A callback that always returns `gfcErrorMapOk`. -/
def accepts (α : Type) : Resolve α := fun _ _ _ => gfcErrorMapOk

theorem iteratesElements_iff_newMap : IteratesElements (accepts Nat) (newMap Nat) :=
  (iteratesElements_iff (show 0 < initialSize by decide) fun _ _ _ => rfl).mpr
    ⟨rfl, fun i _ => by rw [newMap_inUse]; decide⟩

/-- With one key in the map the callback is called 256 times. -/
theorem iteratesElements_fails :
    ¬∀ (trace : List (MapOp Nat × MapRun Nat)) (resolve : Resolve Nat),
      (∀ i key data, resolve i key data = gfcErrorMapOk) → Run MapSteps ⟨newMap Nat, []⟩ trace →
        EveryState (fun s => IteratesElements resolve s.map) ⟨newMap Nat, []⟩ trace := by
  intro every
  refine traced_fails (f := mapStep 0) [.put keyG (some 1)] (fun _ _ _ step => ⟨0, step⟩) ?_
    fun trace => every trace (accepts Nat) fun _ _ _ => rfl
  intro iterates
  have calls := iterates.calls.length_eq
  revert calls
  decide +kernel

end Guardwatch
