import Guardwatch.Gfc.MapDictionary

/-! New maps and puts in whatever memory `gfc_gc_malloc` returns: `gfc_map_new` clears the data of its
elements and `gfc_map_rehash` nothing, so the flags of the elements are those that the blocks have. -/

namespace Guardwatch

open SlotTable LinearProbe Labelled

variable {α : Type}

/-- A put, with the tables that `gfc_gc_malloc` returns in it. -/
structure MapPut (α : Type) where
  key : MapKey
  value : Option α
  alloc : TableAlloc α

/-- The history has the puts that returned `gfcErrorMapOk`. -/
def putStep (fuel : Nat) (s : MapRun α) (op : MapPut α) : Option (MapRun α) :=
  (gfcMapPut op.alloc fuel s.map op.key op.value).map fun result =>
    ⟨result.2, if result.1 = gfcErrorMapOk then .put op.key op.value :: s.history else s.history⟩

def PutSteps (s : MapRun α) (op : MapPut α) (t : MapRun α) : Prop := ∃ fuel, putStep fuel s op = some t

/-- The block of a new map has no element in use. -/
def ClearBlock (alloc : TableAlloc α) : Prop :=
  ∀ block, alloc initialSize = some block → ∀ i < initialSize, (block i).inUse = 0

/-- The put finds a slot, or gets no larger table, or only tables with no element in use. -/
def PutsClear (s : MapRun α) (op : MapPut α) : Prop :=
  gfcMapHash s.map op.key ≠ gfcErrorMapFull ∨ op.alloc (2 * s.map.tableSize) = none ∨
    Supplies op.alloc

theorem gfcMapNew_clear {alloc : TableAlloc α} {map : GfcMap α} (new : gfcMapNew alloc = some map)
    (clear : ClearBlock alloc) : map.Holds (fun _ => none) ∧ map.Packed := by
  obtain ⟨block, allocated, rfl⟩ := Option.map_eq_some_iff.mp new
  have unused := clear block allocated
  exact ⟨clear_holds (show 0 < initialSize by decide) unused, clear_packed unused⟩

/-- A put that gets no larger table leaves the map as it is. -/
theorem gfcMapPut_outOfMemory {alloc : TableAlloc α} {fuel : Nat} {map map' : GfcMap α}
    {key : MapKey} {value : Option α} {rc : Nat} (full : gfcMapHash map key = gfcErrorMapFull)
    (unallocated : alloc (2 * map.tableSize) = none)
    (done : gfcMapPut alloc fuel map key value = some (rc, map')) :
    rc = gfcErrorMapOutOfMemory ∧ map' = map := by
  rcases gfcMapPut_cases done with ⟨room, -, -⟩ | ⟨fuel, status, map₁, rfl, -, rehash, ended⟩
  · exact absurd full room
  · simp only [gfcMapRehash, unallocated] at rehash
    cases rehash
    rcases ended with ⟨-, rfl, rfl⟩ | ⟨rehashed, -⟩
    · exact ⟨rfl, rfl⟩
    · exact absurd rfl rehashed

/-- The map has the entries of the history, none of them behind an unused slot. -/
structure Remembers (s : MapRun α) : Prop where
  holds : s.map.Holds fun key => lastPut key s.history
  packed : s.map.Packed

theorem remembers_step {s t : MapRun α} {op : MapPut α} (remembers : Remembers s)
    (clear : PutsClear s op) (step : PutSteps s op t) : Remembers t := by
  obtain ⟨fuel, step⟩ := step
  obtain ⟨⟨rc, map⟩, done, rfl⟩ := Option.map_eq_some_iff.mp step
  have shown := remembers.packed.shown op.key
  have stored : ∀ {map' : GfcMap α},
      map'.Holds (Function.update (fun key => lastPut key s.history) op.key (some op.value)) →
        map'.Holds fun key => lastPut key (.put op.key op.value :: s.history) := by
    intro map' holds'
    convert holds' using 2 with k
    simp [lastPut, Function.update_apply, eq_comm]
  by_cases room : gfcMapHash s.map op.key = gfcErrorMapFull
  · rcases clear with found | unallocated | supplies
    · exact absurd room found
    · obtain ⟨rfl, rfl⟩ := gfcMapPut_outOfMemory room unallocated done
      exact remembers
    · obtain ⟨rfl, holds', keeps⟩ := gfcMapPut_holds supplies fuel remembers.holds shown done
      exact ⟨stored holds', keeps remembers.packed⟩
  · rw [gfcMapPut_room room] at done
    cases done
    exact ⟨stored (storeAt_holds remembers.holds op.value room shown),
      storeAt_packed remembers.holds remembers.packed op.value room⟩

/-- A new map reads back what was put into it last, and nothing else, where the block of the map and
the tables of the puts have no element in use. -/
theorem isDictionary_of_putsClear {alloc : TableAlloc α} {map : GfcMap α}
    (new : gfcMapNew alloc = some map) (clear : ClearBlock alloc)
    {trace : List (MapPut α × MapRun α)} (run : Run PutSteps ⟨map, []⟩ trace)
    (clears : EveryStep PutsClear ⟨map, []⟩ trace) :
    EveryState IsDictionary ⟨map, []⟩ trace := by
  obtain ⟨holds, packed⟩ := gfcMapNew_clear new clear
  exact (run.everyState (J := Remembers) ⟨holds, packed⟩
    (fun _ _ _ remembers clear step => remembers_step remembers clear step) clears).mono
    fun _ remembers key => gfcMapGet_eq remembers.holds key

theorem putsClear_of_supplies {map : GfcMap α} {trace : List (MapPut α × MapRun α)}
    (run : Run PutSteps ⟨map, []⟩ trace) (supplies : ∀ p ∈ trace, Supplies p.1.alloc) :
    EveryStep PutsClear ⟨map, []⟩ trace :=
  run.everyStep (J := fun _ => True) (Q := fun op => Supplies op.alloc) trivial
    (fun _ _ _ _ _ _ => trivial) supplies fun _ _ _ clear => .inr (.inr clear)

/-- Blocks whose elements had a key and data, and are not in use. -/
def unusedBlocks : TableAlloc Nat := fun _ => some fun _ => ⟨keyHJ, 0, some 7⟩

theorem supplies_unusedBlocks : Supplies unusedBlocks := fun _ => ⟨_, rfl, fun _ _ => rfl⟩

def twoPuts : List (MapPut Nat) := [⟨keyG, some 1, unusedBlocks⟩, ⟨keyG, some 2, unusedBlocks⟩]

theorem isDictionary_of_putsClear_twoPuts :
    ∃ map, gfcMapNew unusedBlocks = some map ∧
      EveryState IsDictionary ⟨map, []⟩ (traced (putStep 0) ⟨map, []⟩ twoPuts) := by
  obtain ⟨map, new⟩ : ∃ map, gfcMapNew unusedBlocks = some map := ⟨_, rfl⟩
  refine ⟨map, new, ?_⟩
  generalize eq : traced (putStep 0) ⟨map, []⟩ twoPuts = trace
  have run : Run PutSteps ⟨map, []⟩ trace :=
    eq ▸ (run_traced _ _ _).mono fun _ _ _ step => ⟨0, step⟩
  have clear : ClearBlock unusedBlocks := by
    rintro block ⟨⟩ i inside
    rfl
  refine isDictionary_of_putsClear new clear run (putsClear_of_supplies run ?_)
  intro p member
  rw [← eq] at member
  have listed := mem_of_mem_traced member
  simp only [twoPuts, List.mem_cons, List.not_mem_nil, or_false] at listed
  rcases listed with first | second
  · rw [first]
    exact supplies_unusedBlocks
  · rw [second]
    exact supplies_unusedBlocks

/-- Blocks of a table that had the key `g` in its slot 108. -/
def reusedBlocks : TableAlloc Nat := fun _ =>
  some fun i => ⟨keyG, if i = 108 then 1 else 0, some 7⟩

/-- The map that `gfc_map_new` makes of such a block. -/
def reusedMap : GfcMap Nat := ⟨initialSize, 0, fun i => ⟨keyG, if i = 108 then 1 else 0, none⟩⟩

/-- The key is found in a new map. -/
theorem isDictionary_of_new_fails :
    ¬∀ (alloc : TableAlloc Nat) (map : GfcMap Nat) (trace : List (MapPut Nat × MapRun Nat)),
      gfcMapNew alloc = some map → Run PutSteps ⟨map, []⟩ trace →
        EveryState IsDictionary ⟨map, []⟩ trace := by
  intro every
  have reads : IsDictionary ⟨reusedMap, []⟩ := every reusedBlocks reusedMap [] rfl (.done _)
  have got : gfcMapGet reusedMap keyG = (gfcErrorMapOk, none) := by decide +kernel
  have stored := reads keyG
  rw [got] at stored
  exact absurd stored (by decide)

end Guardwatch
