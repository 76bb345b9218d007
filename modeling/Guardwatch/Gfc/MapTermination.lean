import Guardwatch.Gfc.MapFull
import Guardwatch.Gfc.MapSize

/-! Where `gfc_map_put` returns: a table that doubling reaches has a slot for each of the keys. -/

namespace Guardwatch

open LinearProbe Labelled

variable {α : Type}

/-- The slot of the `j`-th probe for the key in a table of the size. -/
abbrev slotAt (tableSize : Nat) (key : MapKey) (j : Nat) : Nat :=
  probe tableSize (fun key => (hashKey key).toNat % tableSize) key j

/-- The probes for a key in front of slot 3001, whose index is taken for the error code. -/
def openProbes (tableSize : Nat) (key : MapKey) : Finset Nat :=
  (Finset.range maxChainLength).filter fun j =>
    ∀ j' ≤ j, slotAt tableSize key j' ≠ gfcErrorMapFull

/-- Fewer of the keys have a chain that meets the open probes of another one than these are. -/
def Spread (tableSize : Nat) (keys : Finset MapKey) : Prop :=
  ∀ key ∈ keys, ((keys.erase key).filter fun other => ∃ j ∈ openProbes tableSize key,
    ∃ j' < maxChainLength, slotAt tableSize other j' = slotAt tableSize key j).card <
      (openProbes tableSize key).card

instance (tableSize : Nat) (keys : Finset MapKey) : Decidable (Spread tableSize keys) :=
  inferInstanceAs (Decidable (∀ _ ∈ _, _))

/-- The put finds a slot at once, or some number of doublings leads to a table with a size that is
an `int`, not half full with the stored keys, in which they and the new key are spread. -/
def GfcMap.Fits (map : GfcMap α) (key : MapKey) : Prop :=
  gfcMapHash map key ≠ gfcErrorMapFull ∨
    ∃ n < 31, map.tableSize * 2 ^ (n + 1) < 2 ^ 31 ∧
      map.keys.card < map.tableSize * 2 ^ (n + 1) / 2 ∧
      Spread (map.tableSize * 2 ^ (n + 1)) (insert key map.keys)

instance (map : GfcMap α) (key : MapKey) : Decidable (map.Fits key) :=
  inferInstanceAs (Decidable (_ ∨ _))

/-- A put that returns, or one that does not whatever the number of doublings. -/
inductive PutOutcome : Option (GfcMap α) → MapKey × Option α → Option (GfcMap α) → Prop
  | returns {map map' : GfcMap α} {key : MapKey} {value : Option α} (fuel : Nat)
      (done : gfcMapPut (zeroFilled α) fuel map key value = some (gfcErrorMapOk, map')) :
      PutOutcome (some map) (key, value) (some map')
  | never {map : GfcMap α} {key : MapKey} {value : Option α}
      (stuck : ∀ fuel, gfcMapPut (zeroFilled α) fuel map key value = none) :
      PutOutcome (some map) (key, value) none

/-- The puts have returned, and the size of the table is a positive `int`. -/
def PutsReturned (state : Option (GfcMap α)) : Prop :=
  ∃ map, state = some map ∧ 0 < map.tableSize ∧ map.tableSize < 2 ^ 31

def PutFits (state : Option (GfcMap α)) (put : MapKey × Option α) : Prop :=
  ∀ map ∈ state, map.Fits put.1

instance (state : Option (GfcMap α)) (put : MapKey × Option α) : Decidable (PutFits state put) :=
  inferInstanceAs (Decidable (∀ _ ∈ _, _))

/-! ### A table with room -/

/-- Where the keys of a table and another one are spread, and the table is not half full, there is a
slot for the other one. -/
theorem gfcMapHash_spread {map : GfcMap α} {d : MapKey → Option (Option α)} (holds : map.Holds d)
    (large : maxChainLength ≤ map.tableSize) {key : MapKey} (half : map.size < map.tableSize / 2)
    {keys : Finset MapKey} (within : insert key map.keys ⊆ keys)
    (spread : Spread map.tableSize keys) : gfcMapHash map key ≠ gfcErrorMapFull := by
  obtain ⟨j, at_j, vacant⟩ := holds.represents.exists_open holds.positive
    (fun i inside k v at_i =>
      within (Finset.mem_insert_of_mem (mem_keys.mpr ⟨i, inside, v, at_i⟩)))
    large (fun j member => Finset.mem_range.mp (Finset.mem_filter.mp member).1)
    (spread key (within (Finset.mem_insert_self key _)))
  obtain ⟨short, in_front⟩ := Finset.mem_filter.mp at_j
  have suitable : map.Suitable key (map.probed key j) := by
    rcases holds.flags _ (probed_lt holds.positive key j) with unused | used
    · exact .inl unused
    · exact .inr ⟨used, vacant _ _ (slots_eq_some.mpr ⟨used, rfl, rfl⟩)⟩
  obtain ⟨j₁, less, suitable₁, before⟩ := exists_first
    (P := fun j => map.Suitable key (map.probed key j)) ⟨j, Nat.lt_succ_self j, suitable⟩
  have short₁ : j₁ < maxChainLength :=
    Nat.lt_of_lt_of_le less (Finset.mem_range.mp short)
  rw [gfcMapHash_first holds.positive half short₁ suitable₁ before]
  exact in_front j₁ (Nat.le_of_lt_succ less)

/-! ### Doublings -/

/-- At most `n` doublings of the table make it one of the given size. -/
def GfcMap.Reaches (map : GfcMap α) (tableSize n : Nat) : Prop :=
  ∃ m ≤ n, map.tableSize * 2 ^ m = tableSize

/-- A put returns, where its key and the stored ones are among keys that are spread over the table
that `n` doublings reach, and are too few to fill half of it. -/
def PutsSpread (put : GfcMap α → MapKey → Option α → Option (Nat × GfcMap α)) (tableSize n : Nat)
    (keys : Finset MapKey) : Prop :=
  ∀ map d key value, GfcMap.Holds map d → map.Packed → map.Exact →
    map.Reaches tableSize n → insert key map.keys ⊆ keys → map.keys.card < tableSize / 2 →
    ∃ map', put map key value = some (gfcErrorMapOk, map') ∧ map'.Reaches tableSize n

variable {put : GfcMap α → MapKey → Option α → Option (Nat × GfcMap α)} {tableSize n : Nat}
  {keys : Finset MapKey} {map : GfcMap α} {d : MapKey → Option (Option α)} {key : MapKey}

theorem rehashElements_spread (puts : PutsPacked put) (count : PutsCount put)
    (spread : PutsSpread put tableSize n keys) {old : GfcMap α} {e : MapKey → Option (Option α)}
    (olds : old.Holds e) (among : old.keys ⊆ keys) (few : old.keys.card < tableSize / 2)
    {visit : List Nat} (inside : ∀ i ∈ visit, i < old.tableSize) (once : visit.Nodup)
    (holds : map.Holds d) (packed : map.Packed) (exact : map.Exact)
    (reaches : map.Reaches tableSize n) (moved : map.keys ⊆ old.keys)
    (fresh : ∀ i ∈ visit, ∀ k v, old.slots i = some (k, v) → d k = none) :
    ∃ map', rehashElements put old.data visit map = some (gfcErrorMapOk, map') ∧
      map'.Reaches tableSize n := by
  induction visit generalizing map d with
  | nil => exact ⟨map, rfl, reaches⟩
  | cons i rest ih =>
    obtain ⟨inside_i, inside⟩ := List.forall_mem_cons.mp inside
    obtain ⟨fresh_i, fresh⟩ := List.forall_mem_cons.mp fresh
    obtain ⟨new, once⟩ := List.nodup_cons.mp once
    rw [rehashElements]
    by_cases unused : (old.data i).inUse = 0
    · rw [if_pos unused]
      exact ih inside once holds packed exact reaches moved fresh
    · have used := (olds.flags i inside_i).resolve_left unused
      have at_i : old.slots i = some ((old.data i).key, (old.data i).data) :=
        slots_eq_some.mpr ⟨used, rfl, rfl⟩
      have stored : (old.data i).key ∈ old.keys := mem_keys.mpr ⟨i, inside_i, _, at_i⟩
      have moved_i : insert (old.data i).key map.keys ⊆ old.keys :=
        Finset.insert_subset stored moved
      obtain ⟨map₁, put₁, reaches₁⟩ := spread map d (old.data i).key (old.data i).data holds packed
        exact reaches (moved_i.trans among) (Nat.lt_of_le_of_lt (Finset.card_le_card moved) few)
      obtain ⟨-, holds₁, packed₁⟩ := puts _ _ _ _ _ _ holds packed put₁
      have counts := count _ _ _ _ _ _ holds put₁
      have absent : (old.data i).key ∉ map.keys := by
        rw [mem_keys_holds holds, not_not]
        exact fresh_i _ _ at_i
      rw [if_neg unused, put₁]
      refine ih inside once holds₁ packed₁ (counts.exact absent exact) reaches₁
        (counts.keys ▸ moved_i) fun j later k v at_j => ?_
      exact olds.fresh_later inside_i at_i new inside later at_j (fresh j later k v at_j)

theorem gfcMapRehash_spread (puts : PutsPacked put) (count : PutsCount put)
    (spread : PutsSpread put tableSize n keys) (holds : map.Holds d) (among : map.keys ⊆ keys)
    (few : map.keys.card < tableSize / 2) (doubled : map.tableSize * 2 ^ (n + 1) = tableSize) :
    ∃ map', gfcMapRehash (zeroFilled α) put map = some (gfcErrorMapOk, map') ∧
      map'.Reaches tableSize n := by
  obtain ⟨block, allocated, clear⟩ := supplies_zeroFilled (α := α) (2 * map.tableSize)
  have positive : 0 < 2 * map.tableSize := Nat.mul_pos (by decide) holds.positive
  have no_keys : ∀ k, k ∉ GfcMap.keys ⟨2 * map.tableSize, 0, block⟩ := fun k => by
    rw [mem_keys_holds (clear_holds positive clear), not_not]
  simp only [gfcMapRehash, allocated]
  apply rehashElements_spread puts count spread holds among few (by simp) List.nodup_range
    (clear_holds positive clear) (clear_packed clear) (clear_exact clear rfl)
  · refine ⟨n, Nat.le_refl n, ?_⟩
    rw [← doubled, Nat.pow_succ, Nat.mul_comm 2, Nat.mul_assoc, Nat.mul_comm 2]
  · exact fun k member => absurd member (no_keys k)
  · exact fun _ _ _ _ _ => rfl

/-- A put that has to double the table first. -/
theorem gfcMapPut_full_spread {fuel : Nat} (full : gfcMapHash map key = gfcErrorMapFull)
    (holds : map.Holds d) (among : insert key map.keys ⊆ keys)
    (few : map.keys.card < tableSize / 2) (doubled : map.tableSize * 2 ^ (n + 1) = tableSize)
    (spread : PutsSpread (gfcMapPut (zeroFilled α) fuel) tableSize n keys) (value : Option α) :
    ∃ map', gfcMapPut (zeroFilled α) (fuel + 1) map key value = some (gfcErrorMapOk, map') ∧
      map'.Reaches tableSize n := by
  have puts := putsPacked_gfcMapPut (supplies_zeroFilled (α := α)) fuel
  have count := gfcMapPut_counts (supplies_zeroFilled (α := α)) fuel
  obtain ⟨map₁, rehash, reaches⟩ := gfcMapRehash_spread puts count spread holds
    ((Finset.subset_insert key _).trans among) few doubled
  obtain ⟨-, holds₁, packed₁⟩ := gfcMapRehash_holds supplies_zeroFilled puts holds rehash
  have exact₁ := gfcMapRehash_exact supplies_zeroFilled puts count holds rehash
  have same := keys_eq holds₁ holds
  rw [gfcMapPut_full full rehash, if_neg (by decide)]
  exact spread map₁ d key value holds₁ packed₁ exact₁ reaches (same ▸ among) (same ▸ few)

/-- As many nested calls as doublings are enough. -/
theorem gfcMapPut_spread (large : maxChainLength ≤ tableSize) (spread : Spread tableSize keys)
    {fuel : Nat} (enough : n ≤ fuel) :
    PutsSpread (gfcMapPut (zeroFilled α) fuel) tableSize n keys := by
  induction n generalizing fuel with
  | zero =>
    rintro map d key value holds packed exact ⟨m, none, rfl⟩ among few
    obtain rfl : m = 0 := Nat.le_zero.mp none
    rw [Nat.pow_zero, Nat.mul_one] at large spread few ⊢
    have half : map.size < map.tableSize / 2 := by
      rw [exact]
      omega
    have room := gfcMapHash_spread holds large half among spread
    exact ⟨_, gfcMapPut_room room value, 0, Nat.le_refl 0, Nat.mul_one _⟩
  | succ n ih =>
    obtain ⟨fuel, rfl⟩ := Nat.exists_eq_add_one_of_ne_zero (Nat.ne_zero_of_lt enough)
    rintro map d key value holds packed exact ⟨m, fewer, reached⟩ among few
    by_cases full : gfcMapHash map key = gfcErrorMapFull
    · rcases Nat.lt_or_eq_of_le fewer with less | rfl
      · obtain ⟨map', done, m', fewer', reached'⟩ := ih (Nat.le_of_succ_le enough) map d key value
          holds packed exact ⟨m, Nat.le_of_lt_succ less, reached⟩ among few
        exact ⟨map', done, m', Nat.le_succ_of_le fewer', reached'⟩
      · obtain ⟨map', done, m', fewer', reached'⟩ := gfcMapPut_full_spread full holds among few
          reached (ih (Nat.le_of_succ_le_succ enough)) value
        exact ⟨map', done, m', Nat.le_succ_of_le fewer', reached'⟩
    · exact ⟨_, gfcMapPut_room full value, m, fewer, reached⟩

/-- A put that fits returns, with a table whose size is an `int`. -/
theorem gfcMapPut_fits (holds : map.Holds d) (large : maxChainLength ≤ map.tableSize)
    (small : map.tableSize < 2 ^ 31) (fits : map.Fits key) (value : Option α) :
    ∃ fuel map', gfcMapPut (zeroFilled α) fuel map key value = some (gfcErrorMapOk, map') ∧
      map'.tableSize < 2 ^ 31 := by
  by_cases full : gfcMapHash map key = gfcErrorMapFull
  · obtain room | ⟨n, -, int, few, spread⟩ := fits
    · exact absurd full room
    · have large' : maxChainLength ≤ map.tableSize * 2 ^ (n + 1) :=
        large.trans (Nat.le_mul_of_pos_right _ (Nat.two_pow_pos _))
      obtain ⟨map', done, m, -, reached⟩ := gfcMapPut_full_spread full holds
        (Finset.Subset.refl _) few rfl (gfcMapPut_spread large' spread (Nat.le_refl n)) value
      refine ⟨n + 1, map', done, ?_⟩
      calc map'.tableSize ≤ map'.tableSize * 2 ^ m :=
            Nat.le_mul_of_pos_right _ (Nat.two_pow_pos m)
        _ = map.tableSize * 2 ^ (n + 1) := reached
        _ < 2 ^ 31 := int
  · exact ⟨0, _, gfcMapPut_room full value, small⟩

/-! ### Nested calls -/

/-- The second put returns what the first one does, where that returns. -/
def Extends (put put' : GfcMap α → MapKey → Option α → Option (Nat × GfcMap α)) : Prop :=
  ∀ map key value result, put map key value = some result → put' map key value = some result

theorem rehashElements_extends {put' : GfcMap α → MapKey → Option α → Option (Nat × GfcMap α)}
    (wider : Extends put put') {curr : Nat → GfcMapElement α} {visit : List Nat}
    {result : Nat × GfcMap α} (done : rehashElements put curr visit map = some result) :
    rehashElements put' curr visit map = some result := by
  induction visit generalizing map with
  | nil => exact done
  | cons i rest ih =>
    rw [rehashElements] at done ⊢
    split at done
    · rename_i unused
      rw [if_pos unused]
      exact ih done
    · rename_i used
      obtain ⟨⟨status, map₁⟩, put₁, done⟩ := Option.bind_eq_some_iff.mp done
      rw [if_neg used, wider _ _ _ _ put₁]
      dsimp only [Option.bind_eq_bind, Option.bind_some] at done ⊢
      split at done
      · rename_i failed
        rw [if_pos failed]
        exact done
      · rename_i ok
        rw [if_neg ok]
        exact ih done

theorem gfcMapRehash_extends {alloc : TableAlloc α}
    {put' : GfcMap α → MapKey → Option α → Option (Nat × GfcMap α)} (wider : Extends put put')
    {result : Nat × GfcMap α} (done : gfcMapRehash alloc put map = some result) :
    gfcMapRehash alloc put' map = some result := by
  unfold gfcMapRehash at done ⊢
  split at done
  · exact done
  · exact rehashElements_extends wider done

/-- A call that may be nested deeper returns the same. -/
theorem gfcMapPut_extends (alloc : TableAlloc α) {fuel fuel' : Nat} (deeper : fuel ≤ fuel') :
    Extends (gfcMapPut alloc fuel) (gfcMapPut alloc fuel') := by
  induction fuel using Nat.strong_induction_on generalizing fuel' with
  | _ fuel ih =>
    rintro map key value ⟨rc, map'⟩ done
    rcases gfcMapPut_cases done with
      ⟨room, rfl, rfl⟩ | ⟨fuel, status, map₁, rfl, full, rehash, ended⟩
    · exact gfcMapPut_room room value
    · obtain ⟨fuel', rfl⟩ := Nat.exists_eq_add_one_of_ne_zero (Nat.ne_zero_of_lt deeper)
      have wider := ih fuel (Nat.lt_succ_self fuel) (Nat.le_of_succ_le_succ deeper)
      rw [gfcMapPut_full full (gfcMapRehash_extends wider rehash)]
      rcases ended with ⟨failed, rfl, rfl⟩ | ⟨rehashed, done⟩
      · rw [if_pos failed]
      · rw [if_neg rehashed]
        exact wider _ _ _ _ done

theorem gfcMapPut_unique {alloc : TableAlloc α} {fuel fuel' : Nat} {value : Option α}
    {result result' : Nat × GfcMap α} (done : gfcMapPut alloc fuel map key value = some result)
    (done' : gfcMapPut alloc fuel' map key value = some result') : result = result' := by
  have deep := gfcMapPut_extends alloc (Nat.le_max_left fuel fuel') _ _ _ _ done
  have deep' := gfcMapPut_extends alloc (Nat.le_max_right fuel fuel') _ _ _ _ done'
  exact Option.some.inj (deep.symm.trans deep')

/-! ### Runs -/

/-- The map holds a dictionary, in a table whose size is an `int`. -/
structure GfcMap.Sound (map : GfcMap α) : Prop where
  holds : ∃ d, map.Holds d
  packed : map.Packed
  large : maxChainLength ≤ map.tableSize
  small : map.tableSize < 2 ^ 31

theorem newMap_sound : (newMap α).Sound :=
  ⟨⟨_, newMap_holds⟩, newMap_packed, show maxChainLength ≤ initialSize by decide,
    show initialSize < 2 ^ 31 by decide⟩

theorem sound_step {state next : Option (GfcMap α)} {put : MapKey × Option α}
    (sound : ∃ map, state = some map ∧ map.Sound) (fits : PutFits state put)
    (taken : PutOutcome state put next) : ∃ map, next = some map ∧ map.Sound := by
  obtain ⟨map, rfl, ⟨d, holds⟩, packed, large, small⟩ := sound
  obtain ⟨key, value⟩ := put
  obtain ⟨fuel, map', done, small'⟩ := gfcMapPut_fits holds large small (fits map rfl) value
  cases taken with
  | never stuck =>
    rw [stuck fuel] at done
    cases done
  | returns fuel' done' =>
    obtain rfl := congrArg Prod.snd (gfcMapPut_unique done' done)
    obtain ⟨-, holds', keeps⟩ :=
      gfcMapPut_holds supplies_zeroFilled fuel holds (packed.shown key) done
    exact ⟨_, rfl, ⟨_, holds'⟩, keeps packed,
      large.trans (gfcMapPut_grows _ fuel _ _ _ _ _ done), small'⟩

/-- In a run of puts that fit, every put returns. -/
theorem putsReturned_of_fits (trace : List ((MapKey × Option α) × Option (GfcMap α)))
    (run : Run PutOutcome (some (newMap α)) trace)
    (fits : EveryStep PutFits (some (newMap α)) trace) :
    EveryState PutsReturned (some (newMap α)) trace :=
  (run.everyState (J := fun state => ∃ map, state = some map ∧ map.Sound)
    ⟨_, rfl, newMap_sound⟩ (fun _ _ _ sound fits taken => sound_step sound fits taken) fits).mono
    fun _ ⟨map, there, sound⟩ =>
      ⟨map, there, Nat.lt_of_lt_of_le (by decide) sound.large, sound.small⟩

/-- The puts, as long as they return within the given depth. -/
def outcomeStep (fuel : Nat) (state : Option (GfcMap α)) (put : MapKey × Option α) :
    Option (Option (GfcMap α)) :=
  state.bind fun map => (gfcMapPut (zeroFilled α) fuel map put.1 put.2).bind fun result =>
    if result.1 = gfcErrorMapOk then some (some result.2) else none

theorem putOutcome_of_outcomeStep {fuel : Nat} {state next : Option (GfcMap α)}
    {put : MapKey × Option α} (taken : outcomeStep fuel state put = some next) :
    PutOutcome state put next := by
  obtain ⟨map, rfl, puts⟩ := Option.bind_eq_some_iff.mp taken
  obtain ⟨⟨rc, map'⟩, done, returned⟩ := Option.bind_eq_some_iff.mp puts
  split at returned
  · rename_i ok
    cases returned
    obtain rfl : rc = gfcErrorMapOk := ok
    exact .returns fuel done
  · cases returned

/-- Nine keys with chains from slot 202 on in the first table, from 202 or 458 on in the next. -/
def nineKeys : List MapKey :=
  [.ofString 1024 "a", .ofString 1024 "ck", .ofString 1024 "wu", .ofString 1024 "bac",
    .ofString 1024 "bbn", .ofString 1024 "bgz", .ofString 1024 "bjp", .ofString 1024 "blg",
    .ofString 1024 "dfw"]

/-- The ninth of the keys finds its chain full. -/
theorem putsReturned_of_fits_doubled :
    EveryState PutsReturned (some (newMap Nat))
      (traced (outcomeStep 1) (some (newMap Nat)) (nineKeys.map fun key => (key, some 1))) := by
  generalize eq : traced (outcomeStep 1) (some (newMap Nat))
    (nineKeys.map fun key => (key, some 1)) = trace
  refine putsReturned_of_fits trace ?_ ?_
  · rw [← eq]
    exact (run_traced _ _ _).mono fun _ _ _ taken => putOutcome_of_outcomeStep taken
  · rw [← eq]
    decide +kernel

/-! ### Keys of one hash -/

/-- Where every run of puts returns, some map has all the keys that are put. -/
theorem exists_holds_of_returned (puts : List MapKey) (value : Option α) (holds : map.Holds d)
    (packed : map.Packed)
    (every : ∀ trace, Run PutOutcome (some map) trace →
      EveryState PutsReturned (some map) trace) :
    ∃ map' : GfcMap α, ∃ d', map'.Holds d' ∧ (∀ k ∈ puts, d' k ≠ none) ∧
      ∀ k, d k ≠ none → d' k ≠ none := by
  induction puts generalizing map d with
  | nil =>
    exact ⟨map, d, holds, fun _ member => absurd member List.not_mem_nil, fun _ stored => stored⟩
  | cons key rest ih =>
    have returns : ∃ fuel result, gfcMapPut (zeroFilled α) fuel map key value = some result := by
      by_contra never
      simp only [not_exists, ← Option.eq_none_iff_forall_ne_some] at never
      obtain ⟨-, map', there, -⟩ := every [((key, value), none)] (.next (.never never) (.done _))
      cases there
    obtain ⟨fuel, ⟨rc, map₁⟩, done⟩ := returns
    obtain ⟨rfl, holds₁, keeps⟩ :=
      gfcMapPut_holds supplies_zeroFilled fuel holds (packed.shown key) done
    have every₁ : ∀ trace, Run PutOutcome (some map₁) trace →
        EveryState PutsReturned (some map₁) trace :=
      fun trace run => (every _ (.next (.returns fuel done) run)).2
    obtain ⟨map', d', holds', all, keeps'⟩ := ih holds₁ (keeps packed) every₁
    refine ⟨map', d', holds', fun k member => ?_, fun k stored => ?_⟩
    · rcases List.mem_cons.mp member with rfl | later
      · apply keeps'
        rw [Function.update_self]
        exact Option.some_ne_none value
      · exact all k later
    · apply keeps'
      by_cases same : k = key
      · rw [same, Function.update_self]
        exact Option.some_ne_none value
      · rwa [Function.update_of_ne same]

/-- Puts of more keys of one hash than a chain has slots do not all return. -/
theorem not_returned_of_one_hash (puts : List MapKey) (h : UInt64) (distinct : puts.Nodup)
    (many : maxChainLength < puts.length) (same : ∀ key ∈ puts, hashKey key = h) :
    ¬∀ trace, Run PutOutcome (some (newMap α)) trace →
      EveryState PutsReturned (some (newMap α)) trace := by
  intro every
  obtain ⟨map, d, holds, stored, -⟩ :=
    exists_holds_of_returned puts none newMap_holds newMap_packed every
  have few : puts.toFinset.card ≤ maxChainLength := by
    apply holds.represents.card_le (h := h.toNat % map.tableSize)
    · exact fun key member => stored key (List.mem_toFinset.mp member)
    · intro key member
      rw [gfcMapHashInt, same key (List.mem_toFinset.mp member)]
  rw [List.toFinset_card_of_nodup distinct] at few
  omega

/-- Nine keys of one checksum. -/
def crowdedKeys : List MapKey :=
  [.ofString 1024 "saqlxjtk", .ofString 1024 "elhbwufj", .ofString 1024 "zmlwfyoj",
    .ofString 1024 "xdaoylui", .ofString 1024 "txgcxbsi", .ofString 1024 "kycvinzi",
    .ofString 1024 "wvpsntli", .ofString 1024 "rfkdqiqh", .ofString 1024 "nixavsgh"]

theorem putsReturned_fails :
    ¬∀ trace : List ((MapKey × Option Nat) × Option (GfcMap Nat)),
      Run PutOutcome (some (newMap Nat)) trace →
      EveryState PutsReturned (some (newMap Nat)) trace :=
  not_returned_of_one_hash crowdedKeys (hashKey (.ofString 1024 "saqlxjtk")) (by decide +kernel)
    (by decide) (by decide +kernel)

end Guardwatch
