import Guardwatch.Gfc.Map
import Guardwatch.Lib.Runs

/-! The hash map as a dictionary: what each operation does to the dictionary that a map holds, and
when a run of operations reads back what was put last. -/

namespace Guardwatch

open SlotTable LinearProbe Labelled

variable {α : Type}

/-- The slots of a map: those in use, with their key and data. -/
def GfcMap.slots (map : GfcMap α) (i : Nat) : Option (MapKey × Option α) :=
  if (map.data i).inUse = 1 then some ((map.data i).key, (map.data i).data) else none

/-- The map holds the dictionary `d`, with each key in one slot of its chain. -/
structure GfcMap.Holds (map : GfcMap α) (d : MapKey → Option (Option α)) : Prop where
  positive : 0 < map.tableSize
  flags : ∀ i < map.tableSize, (map.data i).inUse = 0 ∨ (map.data i).inUse = 1
  represents : Represents map.tableSize maxChainLength (gfcMapHashInt map) map.slots d

def GfcMap.Packed (map : GfcMap α) : Prop :=
  LinearProbe.Packed map.tableSize maxChainLength (gfcMapHashInt map) map.slots

/-- The map is not half full, and the probes for a stored key meet an unused slot before the slot
that holds the key. The slot 3001 is no such slot: `gfc_map_put` takes its index for the error code
and rehashes. -/
def GfcMap.Hides (map : GfcMap α) (key : MapKey) : Prop :=
  map.size < map.tableSize / 2 ∧ (∃ i < map.tableSize, ∃ v, map.slots i = some (key, v)) ∧
    ∃ j < maxChainLength, map.slots (probe map.tableSize (gfcMapHashInt map) key j) = none ∧
      probe map.tableSize (gfcMapHashInt map) key j ≠ gfcErrorMapFull ∧
      ∀ j' < j, ∃ k v, k ≠ key ∧
        map.slots (probe map.tableSize (gfcMapHashInt map) key j') = some (k, v)

theorem slots_eq_some {map : GfcMap α} {i : Nat} {k : MapKey} {v : Option α} :
    map.slots i = some (k, v) ↔
      (map.data i).inUse = 1 ∧ (map.data i).key = k ∧ (map.data i).data = v := by
  unfold GfcMap.slots
  split <;> simp_all

theorem slots_eq_none {map : GfcMap α} {i : Nat} : map.slots i = none ↔ (map.data i).inUse ≠ 1 := by
  simp [GfcMap.slots]

theorem slots_storeAt (map : GfcMap α) (index : Nat) (key : MapKey) (value : Option α) :
    (storeAt map index key value).slots =
      Function.update map.slots index (some (key, value)) := by
  funext i
  by_cases same : i = index <;> simp [GfcMap.slots, storeAt, same]

theorem hashInt_lt {map : GfcMap α} (positive : 0 < map.tableSize) (key : MapKey) :
    gfcMapHashInt map key < map.tableSize := Nat.mod_lt _ positive

/-! ### Looking a key up -/

theorem findKey_spec {map : GfcMap α} {d : MapKey → Option (Option α)} (holds : map.Holds d)
    (key : MapKey) :
    match findKey map key with
    | some i => i < map.tableSize ∧ map.slots i = some (key, (map.data i).data)
    | none => d key = none := by
  have found := scan_spec (fun curr => (map.data curr).inUse == 1 &&
    (map.data curr).key == key) maxChainLength _ (hashInt_lt holds.positive key)
  unfold findKey
  split <;> rename_i eq <;> rw [eq] at found
  · obtain ⟨inside, stops, -⟩ := found
    simp only [Bool.and_eq_true, beq_iff_eq] at stops
    exact ⟨inside, slots_eq_some.mpr ⟨stops.1, stops.2, rfl⟩⟩
  · refine holds.represents.absent.mpr fun i hi v at_i => ?_
    obtain ⟨j, hj, rfl⟩ := holds.represents.placed i hi key v at_i
    obtain ⟨used, same, -⟩ := slots_eq_some.mp at_i
    have := found j hj
    simp only [probe] at used same
    simp [used, same] at this

/-- `gfc_map_get` reads the dictionary that the map holds. -/
theorem gfcMapGet_eq {map : GfcMap α} {d : MapKey → Option (Option α)} (holds : map.Holds d)
    (key : MapKey) :
    gfcMapGet map key =
      match d key with
      | some value => (gfcErrorMapOk, value)
      | none => (gfcErrorMapMissing, none) := by
  have found := findKey_spec holds key
  unfold gfcMapGet
  split <;> rename_i eq <;> rw [eq] at found
  · rw [(holds.represents.agrees _ _).mpr ⟨_, found⟩]
  · rw [found]

theorem gfcMapRemove_holds {map : GfcMap α} {d : MapKey → Option (Option α)} (holds : map.Holds d)
    (key : MapKey) : (gfcMapRemove map key).2.Holds (Function.update d key none) := by
  have found := findKey_spec holds key
  unfold gfcMapRemove
  split <;> rename_i eq <;> rw [eq] at found
  · rename_i i
    have cleared : GfcMap.slots { map with
        data := Function.update map.data i ⟨CBuffer.zero 1024, 0, none⟩, size := map.size - 1 } =
        Function.update map.slots i none := by
      funext i'
      by_cases same : i' = i <;> simp [GfcMap.slots, same]
    refine ⟨holds.positive, fun i' inside' => ?_, ?_⟩
    · by_cases same : i' = i
      · simp [same]
      · simpa [Function.update_of_ne same] using holds.flags i' inside'
    · rw [cleared]
      exact holds.represents.erase found.1 found.2
  · rwa [show Function.update d key none = d by rw [← found, Function.update_eq_self]]

/-! ### Putting a key -/

theorem gfcMapPut_room {alloc : TableAlloc α} {fuel : Nat} {map : GfcMap α} {key : MapKey}
    (room : gfcMapHash map key ≠ gfcErrorMapFull) (value : Option α) :
    gfcMapPut alloc fuel map key value =
      some (gfcErrorMapOk, storeAt map (gfcMapHash map key) key value) := by
  unfold gfcMapPut
  simp only [room, ne_eq, not_false_eq_true, ↓reduceIte]

theorem gfcMapPut_full {alloc : TableAlloc α} {fuel : Nat} {map map₁ : GfcMap α} {key : MapKey}
    {status : Nat} (full : gfcMapHash map key = gfcErrorMapFull)
    (rehash : gfcMapRehash alloc (gfcMapPut alloc fuel) map = some (status, map₁))
    (value : Option α) :
    gfcMapPut alloc (fuel + 1) map key value =
      if status = gfcErrorMapOutOfMemory then some (gfcErrorMapOutOfMemory, map₁)
      else gfcMapPut alloc fuel map₁ key value := by
  rw [gfcMapPut]
  simp only [full, ne_eq, not_true_eq_false, ↓reduceIte, rehash]
  rfl

/-- A put stores the key in the slot that is found, or rehashes, which runs out of memory or leaves
a map to put the key into. -/
theorem gfcMapPut_cases {alloc : TableAlloc α} {fuel : Nat} {map map' : GfcMap α} {key : MapKey}
    {value : Option α} {rc : Nat} (done : gfcMapPut alloc fuel map key value = some (rc, map')) :
    (gfcMapHash map key ≠ gfcErrorMapFull ∧ rc = gfcErrorMapOk ∧
      map' = storeAt map (gfcMapHash map key) key value) ∨
    ∃ fuel' status map₁, fuel = fuel' + 1 ∧ gfcMapHash map key = gfcErrorMapFull ∧
      gfcMapRehash alloc (gfcMapPut alloc fuel') map = some (status, map₁) ∧
      (status = gfcErrorMapOutOfMemory ∧ rc = gfcErrorMapOutOfMemory ∧ map' = map₁ ∨
        status ≠ gfcErrorMapOutOfMemory ∧
          gfcMapPut alloc fuel' map₁ key value = some (rc, map')) := by
  by_cases full : gfcMapHash map key = gfcErrorMapFull
  · right
    unfold gfcMapPut at done
    simp only [full, ne_eq, not_true_eq_false, ↓reduceIte] at done
    cases fuel with
    | zero => cases done
    | succ fuel =>
      obtain ⟨⟨status, map₁⟩, rehash, done⟩ := Option.bind_eq_some_iff.mp done
      refine ⟨fuel, status, map₁, rfl, full, rehash, ?_⟩
      dsimp only at done
      split at done
      · rename_i failed
        cases done
        exact .inl ⟨failed, rfl, rfl⟩
      · rename_i rehashed
        exact .inr ⟨rehashed, done⟩
  · rw [gfcMapPut_room full] at done
    cases done
    exact .inl ⟨full, rfl, rfl⟩

/-- The loop of `gfc_map_rehash` passes over an unused element; it puts any other one, and ends
where the put fails. -/
theorem rehashElements_cases {put : GfcMap α → MapKey → Option α → Option (Nat × GfcMap α)}
    {curr : Nat → GfcMapElement α} {i : Nat} {rest : List Nat} {map map' : GfcMap α} {rc : Nat}
    (done : rehashElements put curr (i :: rest) map = some (rc, map')) :
    ((curr i).inUse = 0 ∧ rehashElements put curr rest map = some (rc, map')) ∨
    ((curr i).inUse ≠ 0 ∧ ∃ status map₁,
      put map (curr i).key (curr i).data = some (status, map₁) ∧
      (status ≠ gfcErrorMapOk ∧ rc = status ∧ map' = map₁ ∨
        status = gfcErrorMapOk ∧ rehashElements put curr rest map₁ = some (rc, map'))) := by
  rw [rehashElements] at done
  split at done
  · rename_i unused
    exact .inl ⟨unused, done⟩
  · rename_i used
    obtain ⟨⟨status, map₁⟩, put₁, done⟩ := Option.bind_eq_some_iff.mp done
    refine .inr ⟨used, status, map₁, put₁, ?_⟩
    dsimp only at done
    split at done
    · rename_i failed
      cases done
      exact .inl ⟨failed, rfl, rfl⟩
    · rename_i ok
      exact .inr ⟨not_not.mp ok, done⟩

/-- The slot that `gfc_map_hash` finds: the first of the probes that is unused or has the key. -/
theorem gfcMapHash_spec {map : GfcMap α} {d : MapKey → Option (Option α)} (holds : map.Holds d)
    (key : MapKey) (room : gfcMapHash map key ≠ gfcErrorMapFull) :
    map.size < map.tableSize / 2 ∧ gfcMapHash map key < map.tableSize ∧
    ∃ j < maxChainLength, probe map.tableSize (gfcMapHashInt map) key j = gfcMapHash map key ∧
      (map.slots (gfcMapHash map key) = none ∨ ∃ v, map.slots (gfcMapHash map key) = some (key, v)) ∧
      ∀ j' < j, ∃ k v, k ≠ key ∧
        map.slots (probe map.tableSize (gfcMapHashInt map) key j') = some (k, v) := by
  have found := scan_spec (fun curr => (map.data curr).inUse == 0 ||
    ((map.data curr).inUse == 1 && (map.data curr).key == key)) maxChainLength _
    (hashInt_lt holds.positive key)
  unfold gfcMapHash at room ⊢
  split at room
  · exact absurd rfl room
  rename_i half
  rw [if_neg half]
  cases eq : scan map.tableSize (fun curr => (map.data curr).inUse == 0 ||
      ((map.data curr).inUse == 1 && (map.data curr).key == key)) maxChainLength
      (gfcMapHashInt map key) with
  | none => simp [eq] at room
  | some i =>
    rw [eq] at found
    obtain ⟨inside, stops, j, hj, at_j, before⟩ := found
    refine ⟨by omega, inside, j, hj, at_j, ?_, fun j' hj' => ?_⟩
    · simp only [Bool.or_eq_true, Bool.and_eq_true, beq_iff_eq] at stops
      rcases stops with unused | ⟨used, same⟩
      · exact .inl (slots_eq_none.mpr (by simp [unused]))
      · exact .inr ⟨_, slots_eq_some.mpr ⟨used, same, rfl⟩⟩
    · have passed := before j' hj'
      simp only [Bool.or_eq_false_iff, Bool.and_eq_false_iff, beq_eq_false_iff_ne] at passed
      have used := (holds.flags _ (Nat.mod_lt _ holds.positive)).resolve_left passed.1
      exact ⟨_, _, passed.2.resolve_left (fun h => h used), slots_eq_some.mpr ⟨used, rfl, rfl⟩⟩

/-- A put that finds a slot stores the key there alone, unless the map hides it. -/
theorem storeAt_holds {map : GfcMap α} {d : MapKey → Option (Option α)} (holds : map.Holds d)
    {key : MapKey} (value : Option α) (room : gfcMapHash map key ≠ gfcErrorMapFull)
    (shown : ¬map.Hides key) :
    (storeAt map (gfcMapHash map key) key value).Holds (Function.update d key (some value)) := by
  obtain ⟨half, inside, j, hj, at_j, free, before⟩ := gfcMapHash_spec holds key room
  refine ⟨holds.positive, fun i inside' => ?_, ?_⟩
  · by_cases same : i = gfcMapHash map key
    · simp [storeAt, same]
    · simpa [storeAt, Function.update_of_ne same] using holds.flags i inside'
  rw [slots_storeAt]
  refine holds.represents.store value inside ⟨j, hj, at_j⟩ (fun k v at_i => ?_)
    fun i hi other v at_i => ?_
  · rcases free with empty | ⟨v', same⟩
    · rw [empty] at at_i; cases at_i
    · rw [same] at at_i; cases at_i; rfl
  · rcases free with empty | ⟨v', same⟩
    · refine shown ⟨half, ⟨i, hi, v, at_i⟩, j, hj, ?_, ?_, before⟩
      · rw [at_j]; exact empty
      · rw [at_j]; exact room
    · exact other (holds.represents.unique i hi _ inside key v v' at_i same)

theorem storeAt_packed {map : GfcMap α} {d : MapKey → Option (Option α)} (holds : map.Holds d)
    (packed : map.Packed) {key : MapKey} (value : Option α)
    (room : gfcMapHash map key ≠ gfcErrorMapFull) :
    (storeAt map (gfcMapHash map key) key value).Packed := by
  obtain ⟨-, -, j, hj, at_j, -, before⟩ := gfcMapHash_spec holds key room
  unfold GfcMap.Packed
  rw [slots_storeAt]
  refine LinearProbe.Packed.store packed value hj at_j fun j' hj' => ?_
  obtain ⟨k, v, -, used⟩ := before j' hj'
  rw [show probe _ _ key j' = probe map.tableSize (gfcMapHashInt map) key j' from rfl, used]
  exact nofun

/-- Where no entry has an unused slot before it, no key is hidden. -/
theorem GfcMap.Packed.shown {map : GfcMap α} (packed : map.Packed) (key : MapKey) :
    ¬map.Hides key := by
  rintro ⟨-, ⟨i, hi, v, at_i⟩, j, hj, empty, -, before⟩
  obtain ⟨j₁, hj₁, at_j₁, used⟩ := packed i hi key v at_i
  rcases Nat.lt_trichotomy j j₁ with less | rfl | more
  · exact used j less empty
  · rw [at_j₁, at_i] at empty; cases empty
  · obtain ⟨k, v', other, at_k⟩ := before j₁ more
    rw [at_j₁, at_i] at at_k
    cases at_k
    exact other rfl

/-- What rehashing relies on: a put into a packed map puts its key into the dictionary, and keeps
the map packed. -/
def PutsPacked (put : GfcMap α → MapKey → Option α → Option (Nat × GfcMap α)) : Prop :=
  ∀ map d key value rc map', GfcMap.Holds map d → map.Packed →
    put map key value = some (rc, map') →
    rc = gfcErrorMapOk ∧ map'.Holds (Function.update d key (some value)) ∧ map'.Packed

theorem rehashElements_holds {put : GfcMap α → MapKey → Option α → Option (Nat × GfcMap α)}
    (puts : PutsPacked put) {old : GfcMap α} {e : MapKey → Option (Option α)} (olds : old.Holds e)
    {visit : List Nat} (inside : ∀ i ∈ visit, i < old.tableSize) {map map' : GfcMap α}
    {d : MapKey → Option (Option α)} {rc : Nat} (holds : map.Holds d) (packed : map.Packed)
    (done : rehashElements put old.data visit map = some (rc, map')) :
    rc = gfcErrorMapOk ∧ map'.Holds (reinsert old.slots visit d) ∧ map'.Packed := by
  induction visit generalizing map d with
  | nil =>
    rw [rehashElements] at done
    cases done
    exact ⟨rfl, holds, packed⟩
  | cons i rest ih =>
    obtain ⟨inside_i, inside⟩ := List.forall_mem_cons.mp inside
    rcases rehashElements_cases done with ⟨unused, done⟩ | ⟨inUse, status, map₁, put₁, ended⟩
    · rw [reinsert, slots_eq_none.mpr (by simp [unused])]
      exact ih inside holds packed done
    · have used := (olds.flags i inside_i).resolve_left inUse
      obtain ⟨rfl, holds₁, packed₁⟩ := puts _ _ _ _ _ _ holds packed put₁
      rw [reinsert, slots_eq_some.mpr ⟨used, rfl, rfl⟩]
      rcases ended with ⟨failed, -, -⟩ | ⟨-, done⟩
      · exact absurd rfl failed
      · exact ih inside holds₁ packed₁ done

/-- The allocator returns every table, with no element in use. -/
def Supplies (alloc : TableAlloc α) : Prop :=
  ∀ tableSize, ∃ block, alloc tableSize = some block ∧ ∀ i < tableSize, (block i).inUse = 0

theorem supplies_zeroFilled : Supplies (zeroFilled α) := fun _ => ⟨_, rfl, fun _ _ => rfl⟩

theorem slots_clear {map : GfcMap α} (clear : ∀ i < map.tableSize, (map.data i).inUse = 0) :
    ∀ i < map.tableSize, map.slots i = none :=
  fun i inside => slots_eq_none.mpr (by simp [clear i inside])

/-- A map of a table with no element in use is empty. -/
theorem clear_holds {map : GfcMap α} (positive : 0 < map.tableSize)
    (clear : ∀ i < map.tableSize, (map.data i).inUse = 0) : map.Holds fun _ => none :=
  ⟨positive, fun i inside => .inl (clear i inside), represents_clear (slots_clear clear)⟩

theorem clear_packed {map : GfcMap α} (clear : ∀ i < map.tableSize, (map.data i).inUse = 0) :
    map.Packed := packed_clear (slots_clear clear)

variable {alloc : TableAlloc α}

/-- Rehashing keeps the dictionary, and leaves no unused slot before an entry. -/
theorem gfcMapRehash_holds (supplies : Supplies alloc)
    {put : GfcMap α → MapKey → Option α → Option (Nat × GfcMap α)} (puts : PutsPacked put)
    {map map' : GfcMap α} {d : MapKey → Option (Option α)} {rc : Nat} (holds : map.Holds d)
    (done : gfcMapRehash alloc put map = some (rc, map')) :
    rc = gfcErrorMapOk ∧ map'.Holds d ∧ map'.Packed := by
  obtain ⟨block, allocated, clear⟩ := supplies (2 * map.tableSize)
  simp only [gfcMapRehash, allocated] at done
  have := rehashElements_holds puts holds (by simp)
    (clear_holds (Nat.mul_pos (by decide) holds.positive) clear) (clear_packed clear) done
  rwa [reinsert_all holds.represents.toStores] at this

theorem gfcMapPut_holds (supplies : Supplies alloc) (fuel : Nat) {map map' : GfcMap α}
    {d : MapKey → Option (Option α)} {key : MapKey} {value : Option α} {rc : Nat}
    (holds : map.Holds d) (shown : ¬map.Hides key)
    (done : gfcMapPut alloc fuel map key value = some (rc, map')) :
    rc = gfcErrorMapOk ∧ map'.Holds (Function.update d key (some value)) ∧
      (map.Packed → map'.Packed) := by
  induction fuel using Nat.strong_induction_on generalizing map d key value rc map' with
  | _ fuel ih =>
    rcases gfcMapPut_cases done with
      ⟨room, rfl, rfl⟩ | ⟨fuel, status, map₁, rfl, -, rehash, ended⟩
    · exact ⟨rfl, storeAt_holds holds value room shown,
        fun packed => storeAt_packed holds packed value room⟩
    · have puts : PutsPacked (gfcMapPut alloc fuel) := by
        intro map d key value rc map' holds packed done
        obtain ⟨ok, holds', keeps⟩ := ih fuel (Nat.lt_succ_self fuel) holds (packed.shown key) done
        exact ⟨ok, holds', keeps packed⟩
      -- The rehashed map is packed, so the put that follows finds the key if it is stored.
      obtain ⟨rfl, holds₁, packed₁⟩ := gfcMapRehash_holds supplies puts holds rehash
      rcases ended with ⟨failed, -, -⟩ | ⟨-, done⟩
      · cases failed
      · obtain ⟨ok, holds', packed'⟩ := puts _ _ _ _ _ _ holds₁ packed₁ done
        exact ⟨ok, holds', fun _ => packed'⟩

/-! ### Growth -/

/-- A put leaves the table no smaller. -/
def PutsGrow (put : GfcMap α → MapKey → Option α → Option (Nat × GfcMap α)) : Prop :=
  ∀ map key value rc map', put map key value = some (rc, map') → map.tableSize ≤ map'.tableSize

theorem rehashElements_grows {put : GfcMap α → MapKey → Option α → Option (Nat × GfcMap α)}
    (grows : PutsGrow put) {curr : Nat → GfcMapElement α} {visit : List Nat} {map map' : GfcMap α}
    {rc : Nat} (done : rehashElements put curr visit map = some (rc, map')) :
    map.tableSize ≤ map'.tableSize := by
  induction visit generalizing map with
  | nil =>
    cases done
    exact Nat.le_refl _
  | cons i rest ih =>
    rcases rehashElements_cases done with ⟨-, done⟩ | ⟨-, status, map₁, put₁, ended⟩
    · exact ih done
    · have larger := grows _ _ _ _ _ put₁
      rcases ended with ⟨-, -, rfl⟩ | ⟨-, done⟩
      · exact larger
      · exact Nat.le_trans larger (ih done)

/-- Rehashing at least doubles the table, or runs out of memory. -/
theorem gfcMapRehash_grows {alloc : TableAlloc α}
    {put : GfcMap α → MapKey → Option α → Option (Nat × GfcMap α)} (grows : PutsGrow put)
    {map map' : GfcMap α} {rc : Nat} (done : gfcMapRehash alloc put map = some (rc, map')) :
    map.tableSize ≤ map'.tableSize ∧
      (rc ≠ gfcErrorMapOutOfMemory → 2 * map.tableSize ≤ map'.tableSize) := by
  unfold gfcMapRehash at done
  split at done
  · cases done
    exact ⟨Nat.le_refl _, fun allocated => absurd rfl allocated⟩
  · have doubled : 2 * map.tableSize ≤ map'.tableSize := rehashElements_grows grows done
    exact ⟨by omega, fun _ => doubled⟩

theorem gfcMapPut_grows (alloc : TableAlloc α) (fuel : Nat) : PutsGrow (gfcMapPut alloc fuel) := by
  induction fuel using Nat.strong_induction_on with
  | _ fuel ih =>
    intro map key value rc map' done
    rcases gfcMapPut_cases done with
      ⟨-, -, rfl⟩ | ⟨fuel, status, map₁, rfl, -, rehash, ended⟩
    · exact Nat.le_refl _
    · have grows := ih fuel (Nat.lt_succ_self fuel)
      have larger := (gfcMapRehash_grows grows rehash).1
      rcases ended with ⟨-, -, rfl⟩ | ⟨-, done⟩
      · exact larger
      · exact Nat.le_trans larger (grows _ _ _ _ _ done)

/-! ### Runs of operations -/

inductive MapOp (α : Type)
  | put (key : MapKey) (value : Option α)
  | get (key : MapKey)
  | remove (key : MapKey)

/-- A map, and the operations that led to it, the last one first. -/
structure MapRun (α : Type) where
  map : GfcMap α
  history : List (MapOp α)

/-- The map that `gfc_map_new` returns when its table is filled with zeros. -/
def newMap (α : Type) : GfcMap α := ⟨initialSize, 0, fun _ => ⟨CBuffer.zero 1024, 0, none⟩⟩

theorem newMap_inUse (i : Nat) : ((newMap α).data i).inUse = 0 := rfl

theorem newMap_holds : (newMap α).Holds fun _ => none :=
  clear_holds (show 0 < initialSize by decide) fun _ _ => rfl

theorem newMap_packed : (newMap α).Packed := clear_packed fun _ _ => rfl

theorem gfcMapNew_zeroFilled : gfcMapNew (zeroFilled α) = some (newMap α) := rfl

def mapStep (fuel : Nat) (s : MapRun α) (op : MapOp α) : Option (MapRun α) :=
  match op with
  | .put key value =>
    (gfcMapPut (zeroFilled α) fuel s.map key value).map fun result => ⟨result.2, op :: s.history⟩
  | .get _ => some ⟨s.map, op :: s.history⟩
  | .remove key => some ⟨(gfcMapRemove s.map key).2, op :: s.history⟩

/-- One operation, where a put returns. -/
def MapSteps (s : MapRun α) (op : MapOp α) (t : MapRun α) : Prop :=
  ∃ fuel, mapStep fuel s op = some t

/-- The value of the last put of a key that no remove of the key follows. -/
def lastPut (key : MapKey) : List (MapOp α) → Option (Option α)
  | [] => none
  | .put k value :: rest => if k = key then some value else lastPut key rest
  | .get _ :: rest => lastPut key rest
  | .remove k :: rest => if k = key then none else lastPut key rest

def IsDictionary (s : MapRun α) : Prop :=
  ∀ key, gfcMapGet s.map key =
    match lastPut key s.history with
    | some value => (gfcErrorMapOk, value)
    | none => (gfcErrorMapMissing, none)

/-- A put does not find its key hidden. -/
def PutsShown (s : MapRun α) (op : MapOp α) : Prop :=
  ∀ key value, op = .put key value → ¬s.map.Hides key

theorem mapSteps_holds {s t : MapRun α} {op : MapOp α}
    (holds : s.map.Holds fun key => lastPut key s.history) (shown : PutsShown s op)
    (step : MapSteps s op t) : t.map.Holds fun key => lastPut key t.history := by
  obtain ⟨fuel, step⟩ := step
  cases op with
  | put key value =>
    obtain ⟨⟨rc, map⟩, done, rfl⟩ := Option.map_eq_some_iff.mp step
    have holds' := (gfcMapPut_holds supplies_zeroFilled fuel holds (shown key value rfl) done).2.1
    convert holds' using 2 with k
    simp [lastPut, Function.update_apply, eq_comm]
  | get key =>
    cases step
    exact holds
  | remove key =>
    cases step
    convert gfcMapRemove_holds holds key using 2 with k
    simp [lastPut, Function.update_apply, eq_comm]

/-- A run of puts, gets and removes reads back what was put last, as long as no put finds its key
behind an unused slot of its chain. -/
theorem isDictionary_of_putsShown {trace : List (MapOp α × MapRun α)}
    (run : Run MapSteps ⟨newMap α, []⟩ trace)
    (shown : EveryStep PutsShown ⟨newMap α, []⟩ trace) :
    EveryState IsDictionary ⟨newMap α, []⟩ trace :=
  (run.everyState (J := fun s => s.map.Holds fun key => lastPut key s.history)
    newMap_holds (fun _ _ _ holds shown step => mapSteps_holds holds shown step)
    shown).mono fun _ holds key => gfcMapGet_eq holds key

def NoRemove : MapOp α → Prop
  | .remove _ => False
  | _ => True

/-- Without removes no put finds its key hidden. -/
theorem putsShown_of_noRemove {trace : List (MapOp α × MapRun α)}
    (run : Run MapSteps ⟨newMap α, []⟩ trace) (puts : ∀ p ∈ trace, NoRemove p.1) :
    EveryStep PutsShown ⟨newMap α, []⟩ trace := by
  refine run.everyStep (J := fun s => (∃ d, s.map.Holds d) ∧ s.map.Packed) (Q := NoRemove)
    ⟨⟨_, newMap_holds⟩, newMap_packed⟩ ?_ puts
    fun s _ kept _ key _ _ => kept.2.shown key
  rintro s op t ⟨⟨d, holds⟩, packed⟩ noRemove ⟨fuel, step⟩
  cases op with
  | put key value =>
    obtain ⟨⟨rc, map⟩, done, rfl⟩ := Option.map_eq_some_iff.mp step
    obtain ⟨-, holds', keeps⟩ := gfcMapPut_holds supplies_zeroFilled fuel holds (packed.shown key) done
    exact ⟨⟨_, holds'⟩, keeps packed⟩
  | get key =>
    cases step
    exact ⟨⟨d, holds⟩, packed⟩
  | remove key => exact noRemove.elim

def overwritten : List (MapOp Nat) :=
  [.put keyG (some 1), .put keyHJ (some 2), .put keyG (some 3), .get keyHJ]

theorem isDictionary_of_putsShown_overwritten :
    EveryState IsDictionary ⟨newMap Nat, []⟩ (traced (mapStep 0) ⟨newMap Nat, []⟩ overwritten) := by
  -- The trace is kept as a variable: the elaborator would otherwise evaluate it.
  generalize eq : traced (mapStep 0) ⟨newMap Nat, []⟩ overwritten = trace
  have run : Run MapSteps ⟨newMap Nat, []⟩ trace :=
    eq ▸ (run_traced _ _ _).mono fun _ _ _ step => ⟨0, step⟩
  refine isDictionary_of_putsShown run (putsShown_of_noRemove run fun p member => ?_)
  rw [← eq] at member
  have := mem_of_mem_traced member
  simp only [overwritten, List.mem_cons, List.not_mem_nil, or_false] at this
  rcases this with eq | eq | eq | eq <;> rw [eq] <;> trivial

/-- The second key is put behind the first, which is removed; then it is put again, into the slot
of the first, and removed. -/
def duplicated : List (MapOp Nat) :=
  [.put keyG (some 1), .put keyHJ (some 2), .remove keyG, .put keyHJ (some 3), .remove keyHJ]

/-- The value put first for the second key is read back after its removal. -/
theorem isDictionary_fails :
    ¬∀ trace, Run MapSteps ⟨newMap Nat, []⟩ trace →
      EveryState IsDictionary ⟨newMap Nat, []⟩ trace := by
  refine traced_fails (f := mapStep 0) duplicated (fun _ _ _ step => ⟨0, step⟩) fun dictionary => ?_
  have got : gfcMapGet (final ⟨newMap Nat, []⟩ (traced (mapStep 0) ⟨newMap Nat, []⟩ duplicated)).map
      keyHJ = (gfcErrorMapOk, some 2) := by decide +kernel
  have removed : lastPut keyHJ (final ⟨newMap Nat, []⟩
      (traced (mapStep 0) ⟨newMap Nat, []⟩ duplicated)).history = none := by decide +kernel
  have reads := dictionary keyHJ
  rw [got, removed] at reads
  exact absurd reads (by decide)

end Guardwatch
