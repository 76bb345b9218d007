import Guardwatch.Gfc.MapDictionary
import Mathlib.Data.Nat.Find

/-! The slots that `gfc_map_hash` finds against the error code that it returns for none: slot 3001
of a table has the code for its index. -/

namespace Guardwatch

open LinearProbe Labelled

variable {α : Type}

/-- The slot is unused or has the key. -/
def GfcMap.Suitable (map : GfcMap α) (key : MapKey) (i : Nat) : Prop :=
  (map.data i).inUse = 0 ∨ (map.data i).inUse = 1 ∧ (map.data i).key = key

/-- The slot of the `j`-th probe for the key. -/
abbrev GfcMap.probed (map : GfcMap α) (key : MapKey) (j : Nat) : Nat :=
  probe map.tableSize (gfcMapHashInt map) key j

/-- The first suitable slot among those probed for the key is slot 3001. -/
def GfcMap.TakenForFull (map : GfcMap α) (key : MapKey) : Prop :=
  ∃ j < maxChainLength, map.probed key j = gfcErrorMapFull ∧ map.Suitable key gfcErrorMapFull ∧
    ∀ j' < j, ¬map.Suitable key (map.probed key j')

theorem suitable_iff {map : GfcMap α} {key : MapKey} {i : Nat} :
    ((map.data i).inUse == 0 || ((map.data i).inUse == 1 && (map.data i).key == key)) = true ↔
      map.Suitable key i := by
  simp [GfcMap.Suitable]

/-- The first suitable slot is the result of `gfc_map_hash`. -/
theorem gfcMapHash_first {map : GfcMap α} (positive : 0 < map.tableSize) {key : MapKey}
    (half : map.size < map.tableSize / 2) {j : Nat} (short : j < maxChainLength)
    (suitable : map.Suitable key (map.probed key j))
    (before : ∀ j' < j, ¬map.Suitable key (map.probed key j')) :
    gfcMapHash map key = map.probed key j := by
  have found : scan map.tableSize (fun curr => (map.data curr).inUse == 0 ||
      ((map.data curr).inUse == 1 && (map.data curr).key == key)) maxChainLength
      (gfcMapHashInt map key) = some (map.probed key j) :=
    scan_eq (hashInt_lt positive key) short (suitable_iff.mpr suitable)
      fun j' less => Bool.eq_false_iff.mpr fun stops => before j' less (suitable_iff.mp stops)
  have room : ¬map.size ≥ map.tableSize / 2 := by omega
  rw [gfcMapHash, if_neg room, found, Option.getD_some]

theorem exists_first {P : Nat → Prop} {n : Nat} (some_j : ∃ j < n, P j) :
    ∃ j < n, P j ∧ ∀ j' < j, ¬P j' := by
  classical
  obtain ⟨j, short, holds⟩ := some_j
  have least := Nat.find_min' ⟨j, holds⟩ holds
  exact ⟨Nat.find ⟨j, holds⟩, by omega, Nat.find_spec ⟨j, holds⟩,
    fun j' less => Nat.find_min ⟨j, holds⟩ less⟩

/-- `gfc_map_get` reads what was stored in the first suitable slot. -/
theorem gfcMapGet_storeAt {map : GfcMap α} (positive : 0 < map.tableSize) {key : MapKey} {j : Nat}
    (short : j < maxChainLength) (suitable : map.Suitable key (map.probed key j))
    (before : ∀ j' < j, ¬map.Suitable key (map.probed key j')) (value : Option α) :
    gfcMapGet (storeAt map (map.probed key j) key value) key = (gfcErrorMapOk, value) := by
  have found : findKey (storeAt map (map.probed key j) key value) key = some (map.probed key j) := by
    refine scan_eq (hashInt_lt positive key) short ?_ fun j' less => ?_
    · show ((GfcMap.data (storeAt map (map.probed key j) key value) (map.probed key j)).inUse == 1 &&
        (GfcMap.data (storeAt map (map.probed key j) key value) (map.probed key j)).key == key) = true
      simp [storeAt]
    · have unsuitable := before j' less
      have other : map.probed key j' ≠ map.probed key j := fun same =>
        unsuitable (same ▸ suitable)
      have kept : (storeAt map (map.probed key j) key value).data (map.probed key j') =
          map.data (map.probed key j') := Function.update_of_ne other ..
      show ((GfcMap.data _ (map.probed key j')).inUse == 1 &&
        (GfcMap.data _ (map.probed key j')).key == key) = false
      rw [kept, Bool.eq_false_iff]
      intro stops
      simp only [Bool.and_eq_true, beq_iff_eq] at stops
      exact unsuitable (.inr stops)
  rw [gfcMapGet, found]
  simp [storeAt]

/-! ### Puts that grow the table -/

/-- A put that stores its key after `gfc_map_hash` returned the error code doubles the table. -/
theorem gfcMapPut_doubles {alloc : TableAlloc α} {fuel : Nat} {map map' : GfcMap α} {key : MapKey}
    {value : Option α} (full : gfcMapHash map key = gfcErrorMapFull)
    (done : gfcMapPut alloc fuel map key value = some (gfcErrorMapOk, map')) :
    2 * map.tableSize ≤ map'.tableSize := by
  rcases gfcMapPut_cases done with
    ⟨room, -, -⟩ | ⟨fuel, status, map₁, rfl, -, rehash, ended⟩
  · exact absurd full room
  · have larger := (gfcMapRehash_grows (gfcMapPut_grows alloc fuel) rehash).2
    rcases ended with ⟨-, failed, -⟩ | ⟨rehashed, done⟩
    · cases failed
    · exact Nat.le_trans (larger rehashed) (gfcMapPut_grows alloc fuel _ _ _ _ _ done)

/-- The put stores the value and leaves the table at its size. -/
def StoresInPlace (alloc : TableAlloc α) (map : GfcMap α) (key : MapKey) (value : Option α) : Prop :=
  ∃ fuel map', gfcMapPut alloc fuel map key value = some (gfcErrorMapOk, map') ∧
    map'.tableSize = map.tableSize ∧ gfcMapGet map' key = (gfcErrorMapOk, value)

theorem not_storesInPlace {alloc : TableAlloc α} {map : GfcMap α} (positive : 0 < map.tableSize)
    {key : MapKey} {value : Option α} (full : gfcMapHash map key = gfcErrorMapFull) :
    ¬StoresInPlace alloc map key value := by
  rintro ⟨fuel, map', done, same, -⟩
  have := gfcMapPut_doubles full done
  omega

/-- A map that is not half full, with a suitable slot among those probed for a key, stores the key
without growing if and only if the first such slot is not slot 3001. -/
theorem storesInPlace_iff {alloc : TableAlloc α} {map : GfcMap α} (positive : 0 < map.tableSize)
    (half : map.size < map.tableSize / 2) {key : MapKey}
    (suitable : ∃ j < maxChainLength, map.Suitable key (map.probed key j)) (value : Option α) :
    StoresInPlace alloc map key value ↔ ¬map.TakenForFull key := by
  constructor
  · rintro stores ⟨j, short, at_j, suitable, before⟩
    rw [← at_j] at suitable
    refine not_storesInPlace positive ?_ stores
    rw [gfcMapHash_first positive half short suitable before, at_j]
  · intro distinct
    obtain ⟨j, short, suitable, before⟩ := exists_first suitable
    have index := gfcMapHash_first positive half short suitable before
    have room : gfcMapHash map key ≠ gfcErrorMapFull := by
      rw [index]
      intro at_j
      exact distinct ⟨j, short, at_j, at_j ▸ suitable, before⟩
    refine ⟨0, storeAt map (gfcMapHash map key) key value, gfcMapPut_room room value, rfl, ?_⟩
    rw [index]
    exact gfcMapGet_storeAt positive short suitable before value

theorem probed_lt {map : GfcMap α} (positive : 0 < map.tableSize) (key : MapKey) (j : Nat) :
    map.probed key j < map.tableSize := Nat.mod_lt _ positive

theorem storesInPlace_iff_newMap : StoresInPlace (zeroFilled Nat) (newMap Nat) keyG (some 1) := by
  have positive : 0 < (newMap Nat).tableSize := show 0 < initialSize by decide
  refine (storesInPlace_iff positive (by decide) ⟨0, by decide, .inl (newMap_inUse _)⟩ _).mpr ?_
  rintro ⟨j, -, at_j, -⟩
  have inside := probed_lt positive keyG j
  rw [at_j] at inside
  exact absurd inside (by decide)

/-! ### Large tables -/

/-- A map of one key, with any count. -/
def singleMap (key : MapKey) (value : Option α) (tableSize : Nat) (size : Int) : GfcMap α where
  tableSize := tableSize
  size := size
  data := Function.update (newMap α).data ((hashKey key).toNat % tableSize) ⟨key, 1, value⟩

variable {key : MapKey} {value : Option α} {tableSize : Nat} {size : Int}

theorem hashInt_singleMap :
    gfcMapHashInt (singleMap key value tableSize size) key = (hashKey key).toNat % tableSize := by
  rw [gfcMapHashInt, singleMap]

theorem suitable_singleMap :
    (singleMap key value tableSize size).Suitable key ((hashKey key).toNat % tableSize) := by
  refine .inr ?_
  simp [singleMap]

theorem probed_zero {map : GfcMap α} (positive : 0 < map.tableSize) (key : MapKey) :
    map.probed key 0 = gfcMapHashInt map key := by
  rw [GfcMap.probed, probe, Nat.add_zero]
  exact Nat.mod_eq_of_lt (hashInt_lt positive key)

/-- A put of the key into its map increments the count. -/
theorem gfcMapPut_singleMap (alloc : TableAlloc α) (fuel : Nat) (positive : 0 < tableSize)
    (half : size < tableSize / 2) (apart : (hashKey key).toNat % tableSize ≠ gfcErrorMapFull) :
    gfcMapPut alloc fuel (singleMap key value tableSize size) key value =
      some (gfcErrorMapOk, singleMap key value tableSize (size + 1)) := by
  have first : (singleMap key value tableSize size).probed key 0 =
      (hashKey key).toNat % tableSize := by
    rw [probed_zero positive, hashInt_singleMap]
  have index := gfcMapHash_first positive half (Nat.zero_lt_succ _) (first ▸ suitable_singleMap) nofun
  rw [first] at index
  rw [gfcMapPut_room (index ▸ apart), index]
  simp only [storeAt, singleMap, Function.update_idem]

/-- The first put of the key into a table that nothing was put into. -/
theorem gfcMapPut_unusedTable (alloc : TableAlloc α) (fuel : Nat) (positive : 0 < tableSize / 2)
    (apart : (hashKey key).toNat % tableSize ≠ gfcErrorMapFull) :
    gfcMapPut alloc fuel ⟨tableSize, 0, (newMap α).data⟩ key value =
      some (gfcErrorMapOk, singleMap key value tableSize 1) := by
  have filled : 0 < tableSize := by omega
  have half : (0 : Int) < (tableSize : Int) / 2 := by omega
  have first : GfcMap.probed ⟨tableSize, 0, (newMap α).data⟩ key 0 =
      (hashKey key).toNat % tableSize := by
    rw [probed_zero filled, gfcMapHashInt]
  have suitable : GfcMap.Suitable ⟨tableSize, 0, (newMap α).data⟩ key
      (GfcMap.probed ⟨tableSize, 0, (newMap α).data⟩ key 0) := .inl rfl
  have index := gfcMapHash_first filled half (Nat.zero_lt_succ _) suitable nofun
  rw [first] at index
  rw [gfcMapPut_room (index ▸ apart), index]
  simp only [storeAt, singleMap, Int.zero_add]

theorem rehashElements_unused {put : GfcMap α → MapKey → Option α → Option (Nat × GfcMap α)}
    {curr : Nat → GfcMapElement α} {visit : List Nat} (unused : ∀ i ∈ visit, (curr i).inUse = 0)
    (map : GfcMap α) : rehashElements put curr visit map = some (gfcErrorMapOk, map) := by
  induction visit with
  | nil => rfl
  | cons i rest ih =>
    obtain ⟨unused_i, unused⟩ := List.forall_mem_cons.mp unused
    rw [rehashElements, if_pos unused_i]
    apply ih unused

/-- The loop of `gfc_map_rehash` over a table with one element puts that element. -/
theorem rehashElements_one {put : GfcMap α → MapKey → Option α → Option (Nat × GfcMap α)}
    {curr : Nat → GfcMapElement α} {visit : List Nat} (once : visit.Nodup) {h : Nat}
    (listed : h ∈ visit) (used : (curr h).inUse ≠ 0)
    (unused : ∀ i ∈ visit, i ≠ h → (curr i).inUse = 0) {map map' : GfcMap α}
    (put_h : put map (curr h).key (curr h).data = some (gfcErrorMapOk, map')) :
    rehashElements put curr visit map = some (gfcErrorMapOk, map') := by
  induction visit with
  | nil => cases listed
  | cons i rest ih =>
    obtain ⟨new, once⟩ := List.nodup_cons.mp once
    obtain ⟨unused_i, unused⟩ := List.forall_mem_cons.mp unused
    rw [rehashElements]
    by_cases here : i = h
    · subst here
      rw [if_neg used, put_h]
      apply rehashElements_unused
      intro j member
      apply unused j member
      rintro rfl
      exact new member
    · rw [if_pos (unused_i here)]
      exact ih once (List.mem_of_ne_of_mem (Ne.symm here) listed) unused

/-- A put of the key into its map that is half full doubles the table, and counts the key twice. -/
theorem gfcMapPut_singleMap_doubles (fuel : Nat) (large : 1 < tableSize)
    (full : ¬size < tableSize / 2)
    (apart : (hashKey key).toNat % (2 * tableSize) ≠ gfcErrorMapFull) :
    gfcMapPut (zeroFilled α) (fuel + 1) (singleMap key value tableSize size) key value =
      some (gfcErrorMapOk, singleMap key value (2 * tableSize) 2) := by
  have positive : 0 < tableSize := by omega
  have reached : (singleMap key value tableSize size).size ≥
      (singleMap key value tableSize size).tableSize / 2 := Int.not_lt.mp full
  have at_full : gfcMapHash (singleMap key value tableSize size) key = gfcErrorMapFull := by
    rw [gfcMapHash, if_pos reached]
  have rehash : gfcMapRehash (zeroFilled α) (gfcMapPut (zeroFilled α) fuel)
      (singleMap key value tableSize size) =
        some (gfcErrorMapOk, singleMap key value (2 * tableSize) 1) := by
    apply rehashElements_one List.nodup_range
      (List.mem_range.mpr (Nat.mod_lt (hashKey key).toNat positive))
    · simp [singleMap]
    · intro i _ other
      simp only [singleMap, Function.update_of_ne other]
      exact newMap_inUse i
    · simp only [singleMap, Function.update_self]
      exact gfcMapPut_unusedTable _ _ (by omega) apart
  rw [gfcMapPut_full at_full rehash, if_neg (by decide)]
  exact gfcMapPut_singleMap _ _ (by omega) (by omega) apart

/-- The maps that puts make of a new map. -/
def ReachableByPuts (map : GfcMap α) : Prop :=
  ∃ trace : List (MapOp α × MapRun α), Run MapSteps ⟨newMap α, []⟩ trace ∧
    (∀ p ∈ trace, ∃ key value, p.1 = .put key value) ∧ (final ⟨newMap α, []⟩ trace).map = map

theorem ReachableByPuts.put {map map' : GfcMap α} (reachable : ReachableByPuts map) {fuel rc : Nat}
    (done : gfcMapPut (zeroFilled α) fuel map key value = some (rc, map')) :
    ReachableByPuts map' := by
  obtain ⟨trace, run, puts, rfl⟩ := reachable
  have taken : MapSteps (final ⟨newMap α, []⟩ trace) (.put key value)
      ⟨map', .put key value :: (final ⟨newMap α, []⟩ trace).history⟩ := by
    refine ⟨fuel, ?_⟩
    rw [mapStep, done]
    rfl
  refine ⟨_, run.snoc taken, fun p member => ?_, by rw [final_snoc]⟩
  rcases List.mem_append.mp member with before | last
  · exact puts p before
  · rw [List.mem_singleton.mp last]
    exact ⟨key, value, rfl⟩

theorem apart_of_mod {x : Nat} (apart : x % 4096 ≠ gfcErrorMapFull) (m : Nat) :
    x % (initialSize * 2 ^ m) ≠ gfcErrorMapFull := by
  intro taken
  have positive : 0 < initialSize * 2 ^ m := Nat.mul_pos (by decide) (Nat.two_pow_pos m)
  have inside := Nat.mod_lt x positive
  rw [taken] at inside
  have large : 4 ≤ m := by
    by_contra small
    have most : 2 ^ m ≤ 2 ^ 3 := Nat.pow_le_pow_right (by decide) (by omega)
    simp only [gfcErrorMapFull, initialSize] at inside
    omega
  have divides : 4096 ∣ initialSize * 2 ^ m := by
    obtain ⟨k, rfl⟩ := Nat.exists_eq_add_of_le large
    exact ⟨2 ^ k, by rw [Nat.pow_add, initialSize]; omega⟩
  have := Nat.mod_mod_of_dvd x divides
  rw [taken] at this
  exact apart this.symm

/-- Puts of one key make a map of every size that doubling reaches. -/
theorem reachable_singleMap (apart : (hashKey key).toNat % 4096 ≠ gfcErrorMapFull) (m : Nat) :
    ReachableByPuts (singleMap key value (initialSize * 2 ^ m) 2) := by
  have climb : ∀ {m : Nat}, ReachableByPuts (singleMap key value (initialSize * 2 ^ m) 2) →
      ∀ n : Nat, n + 2 ≤ initialSize * 2 ^ m / 2 →
        ReachableByPuts (singleMap key value (initialSize * 2 ^ m) (n + 2 : Nat)) := by
    intro m reachable n
    induction n with
    | zero => exact fun _ => reachable
    | succ n ih =>
      intro below
      have positive : 0 < initialSize * 2 ^ m := by omega
      exact (ih (by omega)).put (gfcMapPut_singleMap _ 0 positive (by omega) (apart_of_mod apart m))
  induction m with
  | zero =>
    have first : ReachableByPuts (singleMap key value initialSize 1) :=
      ReachableByPuts.put ⟨[], .done _, nofun, rfl⟩
        (gfcMapPut_unusedTable _ 0 (by decide) (apart_of_mod apart 0))
    exact first.put (gfcMapPut_singleMap _ 0 (by decide) (by decide) (apart_of_mod apart 0))
  | succ m ih =>
    have large : initialSize ≤ initialSize * 2 ^ m :=
      Nat.le_mul_of_pos_right _ (Nat.two_pow_pos m)
    unfold initialSize at large
    have half := climb ih (initialSize * 2 ^ m / 2 - 2) (by unfold initialSize at *; omega)
    have doubled := apart_of_mod apart (m + 1)
    rw [Nat.pow_succ, Nat.mul_comm (2 ^ m), Nat.mul_left_comm] at doubled ⊢
    exact half.put (gfcMapPut_singleMap_doubles 0 (by unfold initialSize at *; omega)
      (by unfold initialSize at *; omega) doubled)

/-- The key whose chain starts at slot 3001 of a table of 4096 elements. -/
def keyJcm : MapKey := CBuffer.ofString 1024 "jcm"

/-- In a map of one key, with 4096 slots, a second key doubles the table. -/
theorem storesInPlace_fails :
    ¬∀ map : GfcMap Nat, ReachableByPuts map → ∀ (alloc : TableAlloc Nat) (key : MapKey)
      (value : Option Nat), map.size < map.tableSize / 2 →
        (∃ j < maxChainLength, map.Suitable key (map.probed key j)) →
        StoresInPlace alloc map key value := by
  intro every
  have large : (singleMap keyG (some 1) 4096 2).tableSize = 4096 := rfl
  have positive : 0 < (singleMap keyG (some 1) 4096 2).tableSize := by
    rw [large]
    decide
  have apart : (hashKey keyG).toNat % 4096 = 3948 := by decide +kernel
  have taken : (hashKey keyJcm).toNat % 4096 = gfcErrorMapFull := by decide +kernel
  have first : (singleMap keyG (some 1) 4096 2).probed keyJcm 0 = gfcErrorMapFull := by
    rw [probed_zero positive, gfcMapHashInt, large, taken]
  have unused : (singleMap keyG (some 1) 4096 2).Suitable keyJcm gfcErrorMapFull := by
    refine .inl ?_
    rw [singleMap, apart]
    rfl
  have half : (singleMap keyG (some 1) 4096 2).size <
      (singleMap keyG (some 1) 4096 2).tableSize / 2 := by decide
  have index := gfcMapHash_first positive half (Nat.zero_lt_succ _) (first ▸ unused) nofun
  have reachable : ReachableByPuts (singleMap keyG (some 1) 4096 2) :=
    reachable_singleMap (by rw [apart]; decide) 4
  exact not_storesInPlace positive (index.trans first)
    (every _ reachable (zeroFilled Nat) keyJcm (some 2) half ⟨0, by decide, first ▸ unused⟩)

end Guardwatch
