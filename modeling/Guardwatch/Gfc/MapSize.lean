import Guardwatch.Gfc.MapDictionary
import Mathlib.Data.Finset.Card
import Mathlib.Data.Finset.Image
import Mathlib.Data.Finset.Range

/-! The size counter of a map against the keys that its table has, over puts, removes and
rehashing. -/

namespace Guardwatch

open SlotTable LinearProbe Labelled

variable {α : Type}

/-- `gfc_map_size`, an `unsigned int`. -/
def gfcMapSize (map : GfcMap α) : UInt32 := UInt32.ofInt map.size

/-- The keys of the slots in use. -/
def GfcMap.keys (map : GfcMap α) : Finset MapKey :=
  ((Finset.range map.tableSize).filter fun i => (map.data i).inUse = 1).image fun i =>
    (map.data i).key

def GfcMap.Exact (map : GfcMap α) : Prop := map.size = map.keys.card

theorem mem_keys {map : GfcMap α} {key : MapKey} :
    key ∈ map.keys ↔ ∃ i < map.tableSize, ∃ v, map.slots i = some (key, v) := by
  simp [GfcMap.keys, slots_eq_some, and_assoc]

theorem mem_keys_holds {map : GfcMap α} {d : MapKey → Option (Option α)} (holds : map.Holds d)
    {key : MapKey} : key ∈ map.keys ↔ d key ≠ none := by
  rw [mem_keys, Option.ne_none_iff_exists']
  simp only [holds.represents.agrees]
  constructor
  · rintro ⟨i, inside, v, at_i⟩
    exact ⟨v, i, inside, at_i⟩
  · rintro ⟨v, i, inside, at_i⟩
    exact ⟨i, inside, v, at_i⟩

theorem keys_eq {map map' : GfcMap α} {d : MapKey → Option (Option α)} (holds : map.Holds d)
    (holds' : map'.Holds d) : map.keys = map'.keys := by
  ext key
  rw [mem_keys_holds holds, mem_keys_holds holds']

theorem card_keys_le (map : GfcMap α) : map.keys.card ≤ map.tableSize := by
  have filtered := (Finset.range map.tableSize).card_filter_le fun i => (map.data i).inUse = 1
  rw [Finset.card_range] at filtered
  exact Finset.card_image_le.trans filtered

/-- A map that is not hidden has no copy of its key, so it is a key that the table has not. -/
theorem not_hides_of_fresh {map : GfcMap α} {key : MapKey} (fresh : key ∉ map.keys) :
    ¬map.Hides key := fun hides => fresh (mem_keys.mpr hides.2.1)

theorem toNat_gfcMapSize {map : GfcMap α} {n : Nat} (size_eq : map.size = n) (small : n < 2 ^ 32) :
    (gfcMapSize map).toNat = n := by
  have whole : ((n : Int) % 2 ^ 32).toNat = n := by omega
  rw [gfcMapSize, size_eq, UInt32.ofInt, whole, UInt32.toNat_ofNat_of_lt' small]

/-! ### One put -/

/-- The key that is stored is a key of the table after it, and those before it stay. -/
theorem keys_storeAt {map : GfcMap α} {d : MapKey → Option (Option α)} (holds : map.Holds d)
    {key : MapKey} (value : Option α) (room : gfcMapHash map key ≠ gfcErrorMapFull) :
    (storeAt map (gfcMapHash map key) key value).keys = insert key map.keys := by
  obtain ⟨-, inside, -, -, -, free, -⟩ := gfcMapHash_spec holds key room
  ext k
  simp only [mem_keys, Finset.mem_insert, slots_storeAt]
  constructor
  · rintro ⟨i, inside', v, at_i⟩
    by_cases same : i = gfcMapHash map key
    · rw [same, Function.update_self] at at_i
      cases at_i
      exact .inl rfl
    · rw [Function.update_of_ne same] at at_i
      exact .inr ⟨i, inside', v, at_i⟩
  · rintro (rfl | ⟨i, inside', v, at_i⟩)
    · exact ⟨_, inside, value, Function.update_self ..⟩
    · by_cases same : i = gfcMapHash map key
      · subst same
        rcases free with empty | ⟨v', at_key⟩
        · rw [empty] at at_i
          cases at_i
        · rw [at_key] at at_i
          cases at_i
          exact ⟨_, inside, value, Function.update_self ..⟩
      · exact ⟨i, inside', v, by rw [Function.update_of_ne same, at_i]⟩

/-- What a put does to the keys and to the counter, which it increments for a stored key too. -/
structure Counts (map map' : GfcMap α) (key : MapKey) : Prop where
  keys : map'.keys = insert key map.keys
  size : map.Exact → map'.size = map.keys.card + 1

theorem Counts.exact {map map' : GfcMap α} {key : MapKey} (counts : Counts map map' key)
    (fresh : key ∉ map.keys) (exact : map.Exact) : map'.Exact := by
  rw [GfcMap.Exact, counts.size exact, counts.keys, Finset.card_insert_of_notMem fresh]
  rfl

theorem storeAt_counts {map : GfcMap α} {d : MapKey → Option (Option α)} (holds : map.Holds d)
    {key : MapKey} (value : Option α) (room : gfcMapHash map key ≠ gfcErrorMapFull) :
    Counts map (storeAt map (gfcMapHash map key) key value) key :=
  ⟨keys_storeAt holds value room, fun exact => congrArg (· + 1) exact⟩

/-- A key that is yet to be visited is absent also after that of another element is put. -/
theorem GfcMap.Holds.fresh_later {old : GfcMap α} {e d : MapKey → Option (Option α)}
    (olds : old.Holds e) {rest : List Nat} {i j : Nat} {key k : MapKey} {data v : Option α}
    {value : Option α} (inside_i : i < old.tableSize) (at_i : old.slots i = some (key, data))
    (new : i ∉ rest) (inside : ∀ i ∈ rest, i < old.tableSize) (later : j ∈ rest)
    (at_j : old.slots j = some (k, v)) (absent : d k = none) :
    Function.update d key (some value) k = none := by
  have other : k ≠ key := by
    rintro rfl
    obtain rfl := olds.represents.unique i inside_i j (inside j later) _ _ _ at_i at_j
    exact new later
  rw [Function.update_of_ne other]
  exact absent

/-- What counting in `gfc_map_rehash` relies on. -/
def PutsCount (put : GfcMap α → MapKey → Option α → Option (Nat × GfcMap α)) : Prop :=
  ∀ map d key value rc map', GfcMap.Holds map d → put map key value = some (rc, map') →
    Counts map map' key

/-- The loop of `gfc_map_rehash` puts keys that the new table has not, so it counts each once. -/
theorem rehashElements_exact {put : GfcMap α → MapKey → Option α → Option (Nat × GfcMap α)}
    (puts : PutsPacked put) (count : PutsCount put) {old : GfcMap α}
    {e : MapKey → Option (Option α)} (olds : old.Holds e) {visit : List Nat}
    (inside : ∀ i ∈ visit, i < old.tableSize) (once : visit.Nodup) {map map' : GfcMap α}
    {d : MapKey → Option (Option α)} {rc : Nat} (holds : map.Holds d) (packed : map.Packed)
    (fresh : ∀ i ∈ visit, ∀ k v, old.slots i = some (k, v) → d k = none) (exact : map.Exact)
    (done : rehashElements put old.data visit map = some (rc, map')) : map'.Exact := by
  induction visit generalizing map d with
  | nil =>
    cases done
    exact exact
  | cons i rest ih =>
    obtain ⟨inside_i, inside⟩ := List.forall_mem_cons.mp inside
    obtain ⟨fresh_i, fresh⟩ := List.forall_mem_cons.mp fresh
    obtain ⟨new, once⟩ := List.nodup_cons.mp once
    rcases rehashElements_cases done with ⟨-, done⟩ | ⟨inUse, status, map₁, put₁, ended⟩
    · exact ih inside once holds packed fresh exact done
    · have used := (olds.flags i inside_i).resolve_left inUse
      have at_i : old.slots i = some ((old.data i).key, (old.data i).data) :=
        slots_eq_some.mpr ⟨used, rfl, rfl⟩
      obtain ⟨rfl, holds₁, packed₁⟩ := puts _ _ _ _ _ _ holds packed put₁
      obtain ⟨-, done⟩ := ended.resolve_left fun failed => failed.1 rfl
      have absent : (old.data i).key ∉ map.keys := by
        rw [mem_keys_holds holds, not_not]
        exact fresh_i _ _ at_i
      have exact₁ := (count _ _ _ _ _ _ holds put₁).exact absent exact
      refine ih inside once holds₁ packed₁ (fun j later k v at_j => ?_) exact₁ done
      exact olds.fresh_later inside_i at_i new inside later at_j (fresh j later k v at_j)

variable {alloc : TableAlloc α}

theorem clear_exact {map : GfcMap α} (clear : ∀ i < map.tableSize, (map.data i).inUse = 0)
    (zero : map.size = 0) : map.Exact := by
  have none_used : map.keys = ∅ := by
    ext key
    rw [mem_keys]
    constructor
    · rintro ⟨i, inside, v, at_i⟩
      rw [slots_clear clear i inside] at at_i
      cases at_i
    · intro member
      cases member
  rw [GfcMap.Exact, zero, none_used]
  rfl

theorem gfcMapRehash_exact (supplies : Supplies alloc)
    {put : GfcMap α → MapKey → Option α → Option (Nat × GfcMap α)} (puts : PutsPacked put)
    (count : PutsCount put) {map map' : GfcMap α} {d : MapKey → Option (Option α)} {rc : Nat}
    (holds : map.Holds d) (done : gfcMapRehash alloc put map = some (rc, map')) : map'.Exact := by
  obtain ⟨block, allocated, clear⟩ := supplies (2 * map.tableSize)
  simp only [gfcMapRehash, allocated] at done
  exact rehashElements_exact puts count holds (by simp) List.nodup_range
    (clear_holds (Nat.mul_pos (by decide) holds.positive) clear) (clear_packed clear)
    (fun _ _ _ _ _ => rfl) (clear_exact clear rfl) done

theorem putsPacked_gfcMapPut (supplies : Supplies alloc) (fuel : Nat) :
    PutsPacked (gfcMapPut alloc fuel) := by
  intro map d key value rc map' holds packed done
  obtain ⟨ok, holds', keeps⟩ := gfcMapPut_holds supplies fuel holds (packed.shown key) done
  exact ⟨ok, holds', keeps packed⟩

theorem gfcMapPut_counts (supplies : Supplies alloc) (fuel : Nat) :
    PutsCount (gfcMapPut alloc fuel) := by
  induction fuel using Nat.strong_induction_on with
  | _ fuel ih =>
    intro map d key value rc map' holds done
    rcases gfcMapPut_cases done with
      ⟨room, rfl, rfl⟩ | ⟨fuel, status, map₁, rfl, -, rehash, ended⟩
    · exact storeAt_counts holds value room
    · have puts := putsPacked_gfcMapPut supplies fuel
      have count := ih fuel (Nat.lt_succ_self fuel)
      obtain ⟨rfl, holds₁, -⟩ := gfcMapRehash_holds supplies puts holds rehash
      have exact₁ := gfcMapRehash_exact supplies puts count holds rehash
      rcases ended with ⟨failed, -, -⟩ | ⟨-, done⟩
      · cases failed
      · have counts := count _ _ _ _ _ _ holds₁ done
        -- The rehashed map has the keys of the map, and its counter is exact.
        have same := keys_eq holds₁ holds
        exact ⟨same ▸ counts.keys, fun _ => same ▸ counts.size exact₁⟩

/-- Rehashing a map keeps its dictionary, in a table of at least twice the size where each key is in
its chain, and makes the counter the number of the keys. -/
theorem gfcMapRehash_preserves {fuel : Nat} {map map' : GfcMap α}
    {d : MapKey → Option (Option α)} {rc : Nat} (holds : map.Holds d)
    (done : gfcMapRehash (zeroFilled α) (gfcMapPut (zeroFilled α) fuel) map = some (rc, map')) :
    rc = gfcErrorMapOk ∧ map'.Holds d ∧ map'.size = map.keys.card ∧
      2 * map.tableSize ≤ map'.tableSize := by
  have puts := putsPacked_gfcMapPut (supplies_zeroFilled (α := α)) fuel
  obtain ⟨ok, holds', -⟩ := gfcMapRehash_holds supplies_zeroFilled puts holds done
  have exact' := gfcMapRehash_exact supplies_zeroFilled puts
    (gfcMapPut_counts supplies_zeroFilled fuel) holds done
  have doubled := (gfcMapRehash_grows (gfcMapPut_grows _ fuel) done).2
  refine ⟨ok, holds', keys_eq holds' holds ▸ exact', doubled ?_⟩
  rw [ok]
  decide

/-- A map with one key, which `gfc_map_put` stores in slot 108. -/
def oneKey : GfcMap Nat := storeAt (newMap Nat) (gfcMapHash (newMap Nat) keyG) keyG (some 1)

theorem gfcMapRehash_preserves_oneKey :
    ∃ rc map', gfcMapRehash (zeroFilled Nat) (gfcMapPut (zeroFilled Nat) 0) oneKey = some (rc, map') ∧
      rc = gfcErrorMapOk ∧ map'.Holds (Function.update (fun _ => none) keyG (some (some 1))) ∧
      map'.size = oneKey.keys.card ∧ 2 * 256 ≤ map'.tableSize := by
  have holds := storeAt_holds newMap_holds (some 1) (by decide +kernel)
    (newMap_packed.shown keyG)
  have returns : (gfcMapRehash (zeroFilled Nat) (gfcMapPut (zeroFilled Nat) 0) oneKey).isSome = true := by
    decide +kernel
  obtain ⟨⟨rc, map'⟩, done⟩ := Option.isSome_iff_exists.mp returns
  exact ⟨rc, map', done, gfcMapRehash_preserves holds done⟩

/-! ### Runs of operations -/

/-- One operation that returns, after which the size of the table is still an `int`. -/
def SizedSteps (s : MapRun α) (op : MapOp α) (t : MapRun α) : Prop :=
  MapSteps s op t ∧ t.map.tableSize < 2 ^ 31

/-- `gfc_map_size` is the number of keys stored. -/
def SizeKept (s : MapRun α) : Prop := (gfcMapSize s.map).toNat = s.map.keys.card

/-- A put is of a key that is not stored. -/
def PutsFresh (s : MapRun α) : MapOp α → Prop
  | .put key _ => key ∉ s.map.keys
  | _ => True

instance (s : MapRun α) : ∀ op, Decidable (PutsFresh s op)
  | .put key _ => inferInstanceAs (Decidable (key ∉ s.map.keys))
  | .get _ | .remove _ => .isTrue trivial

structure Counted (map : GfcMap α) : Prop where
  holds : ∃ d, map.Holds d
  exact : map.Exact
  small : map.tableSize < 2 ^ 31

theorem Counted.kept {s : MapRun α} (counted : Counted s.map) : SizeKept s :=
  toNat_gfcMapSize counted.exact (by have := card_keys_le s.map; have := counted.small; omega)

theorem newMap_counted : Counted (newMap α) :=
  ⟨⟨_, newMap_holds⟩, clear_exact (fun _ _ => rfl) rfl, show initialSize < 2 ^ 31 by decide⟩

theorem gfcMapRemove_exact {map : GfcMap α} {d : MapKey → Option (Option α)} (holds : map.Holds d)
    (exact : map.Exact) (key : MapKey) : (gfcMapRemove map key).2.Exact := by
  have keys_eq : (gfcMapRemove map key).2.keys = map.keys.erase key := by
    ext k
    rw [mem_keys_holds (gfcMapRemove_holds holds key), Finset.mem_erase, mem_keys_holds holds]
    by_cases same : k = key
    · simp [same]
    · simp [same]
  have found := findKey_spec holds key
  unfold GfcMap.Exact at exact ⊢
  rw [keys_eq]
  unfold gfcMapRemove
  split <;> rename_i eq <;> rw [eq] at found
  · have stored : key ∈ map.keys := mem_keys.mpr ⟨_, found.1, _, found.2⟩
    have positive := Finset.card_pos.mpr ⟨key, stored⟩
    rw [Finset.card_erase_of_mem stored]
    show map.size - 1 = _
    omega
  · have absent : key ∉ map.keys := by
      rw [mem_keys_holds holds, not_not]
      exact found
    rw [Finset.erase_eq_of_notMem absent]
    exact exact

theorem counted_step {s t : MapRun α} {op : MapOp α} (counted : Counted s.map)
    (fresh : PutsFresh s op) (step : SizedSteps s op t) : Counted t.map := by
  obtain ⟨⟨fuel, step⟩, small⟩ := step
  obtain ⟨d, holds⟩ := counted.holds
  cases op with
  | put key value =>
    obtain ⟨⟨rc, map⟩, done, rfl⟩ := Option.map_eq_some_iff.mp step
    have holds' := (gfcMapPut_holds supplies_zeroFilled fuel holds (not_hides_of_fresh fresh) done).2.1
    have counts := gfcMapPut_counts supplies_zeroFilled fuel _ _ _ _ _ _ holds done
    exact ⟨⟨_, holds'⟩, counts.exact fresh counted.exact, small⟩
  | get key =>
    cases step
    exact counted
  | remove key =>
    cases step
    exact ⟨⟨_, gfcMapRemove_holds holds key⟩, gfcMapRemove_exact holds counted.exact key, small⟩

/-- A put of a stored key leaves the counter one above the number of the keys. -/
theorem putsFresh_of_kept {s t : MapRun α} {op : MapOp α} (counted : Counted s.map)
    (step : SizedSteps s op t) (kept : SizeKept t) : PutsFresh s op := by
  obtain ⟨⟨fuel, step⟩, small⟩ := step
  obtain ⟨d, holds⟩ := counted.holds
  cases op with
  | get key => trivial
  | remove key => trivial
  | put key value =>
    intro stored
    obtain ⟨⟨rc, map⟩, done, rfl⟩ := Option.map_eq_some_iff.mp step
    have counts := gfcMapPut_counts supplies_zeroFilled fuel _ _ _ _ _ _ holds done
    have few := card_keys_le s.map
    have before := counted.small
    have more : (gfcMapSize map).toNat = s.map.keys.card + 1 :=
      toNat_gfcMapSize (counts.size counted.exact) (by omega)
    have same : map.keys = s.map.keys := by rw [counts.keys, Finset.insert_eq_of_mem stored]
    unfold SizeKept at kept
    rw [more, same] at kept
    omega

/-- The counter is exact throughout a run if and only if every put is of a key that is not stored:
a put of a stored key increments it. -/
theorem sizeKept_iff {trace : List (MapOp α × MapRun α)}
    (run : Run SizedSteps ⟨newMap α, []⟩ trace) :
    EveryState SizeKept ⟨newMap α, []⟩ trace ↔ EveryStep PutsFresh ⟨newMap α, []⟩ trace :=
  run.everyState_iff (J := fun s => Counted s.map) newMap_counted (fun _ counted => counted.kept)
    (fun _ _ _ counted fresh step => counted_step counted fresh step)
    fun _ _ _ counted step kept => putsFresh_of_kept counted step kept

def sizedStep (s : MapRun α) (op : MapOp α) : Option (MapRun α) :=
  (mapStep 0 s op).filter fun t => t.map.tableSize < 2 ^ 31

theorem sizedStep_steps {s t : MapRun α} {op : MapOp α} (step : sizedStep s op = some t) :
    SizedSteps s op t := by
  obtain ⟨taken, small⟩ := Option.filter_eq_some_iff.mp step
  exact ⟨⟨0, taken⟩, by simpa using small⟩

def putAgain : List (MapOp Nat) :=
  [.put keyG (some 1), .put keyHJ (some 2), .remove keyG, .get keyHJ, .put keyG (some 3)]

theorem sizeKept_iff_putAgain :
    EveryState SizeKept ⟨newMap Nat, []⟩ (traced sizedStep ⟨newMap Nat, []⟩ putAgain) := by
  generalize eq : traced sizedStep ⟨newMap Nat, []⟩ putAgain = trace
  have run : Run SizedSteps ⟨newMap Nat, []⟩ trace :=
    eq ▸ (run_traced _ _ _).mono fun _ _ _ step => sizedStep_steps step
  refine (sizeKept_iff run).mpr ?_
  rw [← eq]
  decide +kernel

def putTwice : List (MapOp Nat) := [.put keyG (some 1), .put keyG (some 2)]

/-- The counter is 2 after one key is put twice. -/
theorem sizeKept_fails :
    ¬∀ trace, Run SizedSteps ⟨newMap Nat, []⟩ trace →
      EveryState SizeKept ⟨newMap Nat, []⟩ trace := by
  refine traced_fails (f := sizedStep) putTwice (fun _ _ _ step => sizedStep_steps step)
    fun kept => ?_
  have two : (gfcMapSize (final ⟨newMap Nat, []⟩
      (traced sizedStep ⟨newMap Nat, []⟩ putTwice)).map).toNat = 2 := by decide +kernel
  have one : (final ⟨newMap Nat, []⟩
      (traced sizedStep ⟨newMap Nat, []⟩ putTwice)).map.keys.card = 1 := by decide +kernel
  unfold SizeKept at kept
  rw [two, one] at kept
  exact absurd kept (by decide)

end Guardwatch
