import Guardwatch.Lib.Runs
import Mathlib.Data.List.Basic
import Mathlib.Data.Nat.ModEq
import Mathlib.Data.UInt
import Mathlib.Logic.Function.Basic

/-! The ring of `gfc_ring.c`, and the runs in which it is a bounded queue. -/

namespace Circular

/-! ### Lists held in an array whose last cell is followed by its first -/

variable {β : Type} {n first : Nat} {cells : Nat → β} {items : List β}

/-- The items lie one after another in the `n` cells, from the cell `first` on. -/
def Holds (n : Nat) (cells : Nat → β) (first : Nat) (items : List β) : Prop :=
  ∀ i (inside : i < items.length), cells ((first + i) % n) = items[i]

theorem Holds.nil : Holds n cells first [] := fun _ inside => absurd inside (Nat.not_lt_zero _)

theorem Holds.head {x : β} {rest : List β} (holds : Holds n cells first (x :: rest)) :
    cells (first % n) = x := holds 0 (Nat.zero_lt_succ _)

theorem Holds.tail {x : β} {rest : List β} (holds : Holds n cells first (x :: rest)) :
    Holds n cells (first + 1) rest := by
  intro i inside
  have next := holds (i + 1) (Nat.succ_lt_succ inside)
  rwa [show first + (i + 1) = first + 1 + i by omega] at next

/-- Fewer than `n` steps apart, two cells of the circle differ. -/
theorem mod_ne_of_lt (first : Nat) {i j : Nat} (less : i < j) (near : j < n) :
    (first + i) % n ≠ (first + j) % n := by
  intro same
  have dvd : n ∣ j - i := by
    have := (Nat.modEq_iff_dvd' (show first + i ≤ first + j by omega)).mp same
    rwa [Nat.add_sub_add_left] at this
  have := Nat.le_of_dvd (by omega) dvd
  omega

/-- Storing in the first cell after the items adds an item. -/
theorem Holds.push (holds : Holds n cells first items) (room : items.length < n) (x : β) :
    Holds n (Function.update cells ((first + items.length) % n) x) first (items ++ [x]) := by
  intro i inside
  rw [List.length_append, List.length_singleton] at inside
  rcases Nat.lt_or_eq_of_le (Nat.le_of_lt_succ inside) with old | rfl
  · rw [Function.update_of_ne (mod_ne_of_lt first old room), holds i old,
      List.getElem_append_left old]
  · rw [Function.update_self, List.getElem_append_right (Nat.le_refl _)]
    simp

theorem succ_mod {i : Nat} (inside : i < n) : (i + 1) % n = if i + 1 = n then 0 else i + 1 := by
  split
  · rename_i last
    rw [last, Nat.mod_self]
  · rw [Nat.mod_eq_of_lt (by omega)]

end Circular

namespace Guardwatch

open Labelled Circular

variable {α : Type}

def gfcRingInvalidIndex : UInt32 := -1

def sizeofUserData : Nat := 8
def sizeofRingItem : Nat := 24
def sizeofRingItemP : Nat := 8

/-- `head` is the data of the elements in the memory at the array, and `bytes` the size of the block
that is allocated for them. -/
structure GfcRing (α : Type) where
  head : Nat → Option α
  bytes : Nat
  setter : UInt32
  getter : UInt32
  capacity : UInt32

/-- `gfc_ring_new`, which allocates the size of a pointer for each element. -/
def gfcRingNew (block : Nat → Option α) (count : UInt32) : GfcRing α :=
  { head := block, bytes := sizeofRingItemP * count.toNat, setter := 0, getter := -1,
    capacity := count }

/-- The data of the element, the first member of the structure, lies in the block. -/
def GfcRing.InBlock (ring : GfcRing α) (index : UInt32) : Prop :=
  sizeofRingItem * index.toNat + sizeofUserData ≤ ring.bytes

instance (ring : GfcRing α) (index : UInt32) : Decidable (ring.InBlock index) :=
  inferInstanceAs (Decidable (_ ≤ _))

def gfcRingPush (ring : GfcRing α) (data : Option α) : GfcRing α :=
  let ring := { ring with
    head := Function.update ring.head ring.setter.toNat data, setter := ring.setter + 1 }
  let ring := if ring.setter = ring.capacity then { ring with setter := 0 } else ring
  if ring.getter = gfcRingInvalidIndex then { ring with getter := 0 } else ring

def gfcRingPop (ring : GfcRing α) : Option α × GfcRing α :=
  if ring.getter = gfcRingInvalidIndex then (none, ring)
  else
    let ret := ring.head ring.getter.toNat
    let ring := { ring with getter := ring.getter + 1 }
    if ring.getter = ring.setter then (ret, { ring with getter := gfcRingInvalidIndex })
    else (ret, ring)

/-! ### Runs -/

inductive RingCall (α : Type) where
  | push (data : Option α)
  | pop

/-- The array index that a call uses, if it uses one. -/
def RingCall.index (ring : GfcRing α) : RingCall α → Option UInt32
  | .push _ => some ring.setter
  | .pop => if ring.getter = gfcRingInvalidIndex then none else some ring.getter

/-- A ring with what was pushed and not yet popped, what each pop returned beside what was then the
oldest of these, and the array indices used. -/
structure RingRun (α : Type) where
  ring : GfcRing α
  unread : List (Option α)
  pops : List (Option α × Option α)
  used : List UInt32

def ringStart (block : Nat → Option α) (count : UInt32) : RingRun α :=
  { ring := gfcRingNew block count, unread := [], pops := [], used := [] }

/-- A call on the ring. No push is made while `capacity` values are unread. -/
def ringStep (run : RingRun α) (call : RingCall α) : Option (RingRun α) :=
  let used := (call.index run.ring).toList ++ run.used
  match call with
  | .push data =>
    if run.unread.length < run.ring.capacity.toNat then
      some { run with ring := gfcRingPush run.ring data, unread := run.unread ++ [data], used }
    else none
  | .pop =>
    let popped := gfcRingPop run.ring
    some { ring := popped.2, unread := run.unread.tail
           pops := (popped.1, run.unread.head?.join) :: run.pops, used }

/-- Each pop returned the oldest unread value, and NULL where there was none; each index used is in
the array, and its element in the block of the array. -/
structure RingRun.IsQueue (run : RingRun α) : Prop where
  pops : ∀ p ∈ run.pops, p.1 = p.2
  used : ∀ i ∈ run.used, i < run.ring.capacity
  inBlock : ∀ i ∈ run.used, run.ring.InBlock i

/-- What the ring needs of a call: the element that it uses lies in the block, and a push that finds
the ring empty finds the setter at the first element. -/
def RingRun.KeepsPlace (run : RingRun α) (call : RingCall α) : Prop :=
  (∀ i ∈ call.index run.ring, run.ring.InBlock i) ∧
    match call with
    | .push _ => run.ring.getter = gfcRingInvalidIndex → run.ring.setter = 0
    | .pop => True

-- Named, since the indices are also those of a finite type.
instance (run : RingRun α) (call : RingCall α) :
    Decidable (∀ i ∈ call.index run.ring, run.ring.InBlock i) :=
  Option.decidableForallMem _

instance (run : RingRun α) : ∀ call, Decidable (run.KeepsPlace call)
  | .push _ => inferInstanceAs (Decidable (_ ∧ (_ → _)))
  | .pop => inferInstanceAs (Decidable (_ ∧ True))

/-! ### One call -/

/-- The unread values lie from the getter on, up to the setter. After a pop of the last element the
getter stands behind it: `gfc_ring_pop` does not set it back to the first one. -/
structure GfcRing.Stores (ring : GfcRing α) (unread : List (Option α)) : Prop where
  getter_le : ring.getter ≤ ring.capacity
  nonempty : ring.getter < ring.capacity → unread ≠ []
  setter_eq : ring.setter.toNat = (ring.getter.toNat + unread.length) % ring.capacity.toNat
  items : Holds ring.capacity.toNat ring.head ring.getter.toNat unread

variable {ring : GfcRing α} {unread : List (Option α)} {data : Option α}

/-- What a push does, field by field. -/
theorem gfcRingPush_eq :
    gfcRingPush ring data =
      { ring with
        head := Function.update ring.head ring.setter.toNat data
        setter := if ring.setter + 1 = ring.capacity then 0 else ring.setter + 1
        getter := if ring.getter = gfcRingInvalidIndex then 0 else ring.getter } := by
  unfold gfcRingPush
  dsimp only
  split <;> split <;> rfl

@[simp] theorem gfcRingPush_capacity : (gfcRingPush ring data).capacity = ring.capacity := by
  rw [gfcRingPush_eq]

@[simp] theorem gfcRingPush_bytes : (gfcRingPush ring data).bytes = ring.bytes := by
  rw [gfcRingPush_eq]

@[simp] theorem gfcRingPush_head :
    (gfcRingPush ring data).head = Function.update ring.head ring.setter.toNat data := by
  rw [gfcRingPush_eq]

theorem gfcRingPush_getter :
    (gfcRingPush ring data).getter =
      if ring.getter = gfcRingInvalidIndex then 0 else ring.getter := by
  rw [gfcRingPush_eq]

theorem toNat_add_one {i n : UInt32} (less : i < n) : (i + 1).toNat = i.toNat + 1 := by
  have := UInt32.lt_iff_toNat_lt.mp less
  have := n.toNat_lt
  rw [UInt32.toNat_add]
  exact Nat.mod_eq_of_lt (by simp; omega)

theorem gfcRingPush_setter (inside : ring.setter < ring.capacity) :
    (gfcRingPush ring data).setter.toNat = (ring.setter.toNat + 1) % ring.capacity.toNat := by
  have next := toNat_add_one inside
  rw [succ_mod (UInt32.lt_iff_toNat_lt.mp inside), ← next, gfcRingPush_eq]
  dsimp only
  by_cases last : ring.setter + 1 = ring.capacity
  · rw [if_pos last, if_pos (congrArg _ last)]
    rfl
  · rw [if_neg last, if_neg fun same => last (UInt32.toNat_inj.mp same)]

/-- A push onto an empty ring whose setter is at the first element. -/
theorem gfcRingPush_empty (empty : ring.getter = gfcRingInvalidIndex) (first : ring.setter = 0)
    (positive : 0 < ring.capacity) : (gfcRingPush ring data).Stores [data] := by
  have getter : (gfcRingPush ring data).getter = 0 := by
    rw [gfcRingPush_getter, if_pos empty]
  refine ⟨?_, fun _ => List.cons_ne_nil _ _, ?_, ?_⟩
  · rw [getter]
    exact UInt32.zero_le
  · rw [gfcRingPush_setter (by rwa [first]), gfcRingPush_capacity, getter, first]
    rfl
  · rw [gfcRingPush_head, gfcRingPush_capacity, getter, first]
    have start : Holds ring.capacity.toNat ring.head 0 [] := .nil
    have stored := start.push (UInt32.lt_iff_toNat_lt.mp positive) data
    rwa [List.length_nil, Nat.add_zero, Nat.zero_mod] at stored

/-- A push onto a ring whose getter is an index, while there is room. -/
theorem gfcRingPush_stores (stores : ring.Stores unread)
    (valid : ring.getter ≠ gfcRingInvalidIndex) (room : unread.length < ring.capacity.toNat)
    (inside : ring.setter < ring.capacity) :
    (gfcRingPush ring data).Stores (unread ++ [data]) := by
  have getter : (gfcRingPush ring data).getter = ring.getter := by
    rw [gfcRingPush_getter, if_neg valid]
  refine ⟨?_, fun _ => List.append_ne_nil_of_right_ne_nil _ (List.cons_ne_nil _ _), ?_, ?_⟩
  · rw [getter, gfcRingPush_capacity]
    exact stores.getter_le
  · rw [gfcRingPush_setter inside, gfcRingPush_capacity, getter, stores.setter_eq,
      Nat.mod_add_mod, List.length_append, List.length_singleton, Nat.add_assoc]
  · rw [gfcRingPush_head, gfcRingPush_capacity, getter, stores.setter_eq]
    exact stores.items.push room data

theorem gfcRingPop_empty (empty : ring.getter = gfcRingInvalidIndex) :
    gfcRingPop ring = (none, ring) := if_pos empty

/-- What a pop of a ring with an index in its getter does. -/
theorem gfcRingPop_eq (valid : ring.getter ≠ gfcRingInvalidIndex) :
    gfcRingPop ring =
      (ring.head ring.getter.toNat,
        { ring with
          getter := if ring.getter + 1 = ring.setter then gfcRingInvalidIndex
            else ring.getter + 1 }) := by
  rw [gfcRingPop, if_neg valid]
  dsimp only
  split <;> rfl

/-- A pop changes the getter only. -/
theorem gfcRingPop_frame (ring : GfcRing α) :
    ∃ getter, (gfcRingPop ring).2 = { ring with getter } := by
  by_cases empty : ring.getter = gfcRingInvalidIndex
  · exact ⟨ring.getter, by rw [gfcRingPop_empty empty]⟩
  · exact ⟨_, by rw [gfcRingPop_eq empty]⟩

@[simp] theorem gfcRingPop_capacity : (gfcRingPop ring).2.capacity = ring.capacity := by
  obtain ⟨getter, eq⟩ := gfcRingPop_frame ring
  rw [eq]

@[simp] theorem gfcRingPop_bytes : (gfcRingPop ring).2.bytes = ring.bytes := by
  obtain ⟨getter, eq⟩ := gfcRingPop_frame ring
  rw [eq]

@[simp] theorem gfcRingPop_setter : (gfcRingPop ring).2.setter = ring.setter := by
  obtain ⟨getter, eq⟩ := gfcRingPop_frame ring
  rw [eq]

@[simp] theorem gfcRingPop_head : (gfcRingPop ring).2.head = ring.head := by
  obtain ⟨getter, eq⟩ := gfcRingPop_frame ring
  rw [eq]

theorem gfcRingPop_value (valid : ring.getter ≠ gfcRingInvalidIndex) :
    (gfcRingPop ring).1 = ring.head ring.getter.toNat := by
  rw [gfcRingPop_eq valid]

theorem gfcRingPop_getter (valid : ring.getter ≠ gfcRingInvalidIndex) :
    (gfcRingPop ring).2.getter =
      if ring.getter + 1 = ring.setter then gfcRingInvalidIndex else ring.getter + 1 := by
  rw [gfcRingPop_eq valid]

/-- A pop from a ring whose getter is at an element. -/
theorem gfcRingPop_stores {oldest : Option α} {rest : List (Option α)}
    (stores : ring.Stores (oldest :: rest)) (valid : ring.getter ≠ gfcRingInvalidIndex)
    (inside : ring.getter < ring.capacity) (bounded : rest.length < ring.capacity.toNat) :
    (gfcRingPop ring).1 = oldest ∧
      ((gfcRingPop ring).2.getter = gfcRingInvalidIndex ∧ rest = [] ∨
        (gfcRingPop ring).2.getter = ring.getter + 1 ∧ (gfcRingPop ring).2.Stores rest) := by
  have less := UInt32.lt_iff_toNat_lt.mp inside
  have next := toNat_add_one inside
  have read : (gfcRingPop ring).1 = oldest := by
    have first := stores.items.head
    rwa [Nat.mod_eq_of_lt less, ← gfcRingPop_value valid] at first
  have setter_eq : ring.setter.toNat =
      (ring.getter.toNat + 1 + rest.length) % ring.capacity.toNat := by
    rw [stores.setter_eq, List.length_cons, Nat.add_assoc, Nat.add_comm 1]
  have getter := gfcRingPop_getter valid
  refine ⟨read, ?_⟩
  split at getter
  · rename_i met
    -- The setter is one step after the getter, so only the value just read lay between them.
    refine .inl ⟨getter, ?_⟩
    rw [← met, next] at setter_eq
    apply List.eq_nil_of_length_eq_zero
    by_contra more
    have apart := mod_ne_of_lt (ring.getter.toNat + 1) (Nat.pos_of_ne_zero more) bounded
    have wrapped := Nat.mod_lt (ring.getter.toNat + 1 + rest.length) (Nat.zero_lt_of_lt less)
    rw [← setter_eq] at apart wrapped
    exact apart (Nat.mod_eq_of_lt wrapped)
  · rename_i short
    refine .inr ⟨getter, ?_, fun before => ?_, ?_, ?_⟩
    · rw [getter, gfcRingPop_capacity, UInt32.le_iff_toNat_le, next]
      exact less
    · rw [getter, gfcRingPop_capacity, UInt32.lt_iff_toNat_lt, next] at before
      rintro rfl
      apply short
      rw [← UInt32.toNat_inj, setter_eq, next]
      exact (Nat.mod_eq_of_lt before).symm
    · rw [gfcRingPop_setter, getter, gfcRingPop_capacity, next, setter_eq]
    · rw [gfcRingPop_capacity, gfcRingPop_head, getter, next]
      exact stores.items.tail

/-! ### Runs -/

/-- The block is that of `gfc_ring_new`, and the unread values are stored, or there are none and the
getter is the invalid index. -/
structure RingInvariant (run : RingRun α) : Prop where
  isQueue : run.IsQueue
  bytes : run.ring.bytes = sizeofRingItemP * run.ring.capacity.toNat
  setter_lt : run.ring.setter < run.ring.capacity
  bounded : run.unread.length ≤ run.ring.capacity.toNat
  stored : run.ring.getter = gfcRingInvalidIndex ∧ run.unread = [] ∨
    run.ring.getter ≠ gfcRingInvalidIndex ∧ run.ring.Stores run.unread

theorem ringInvariant_start (block : Nat → Option α) {count : UInt32} (positive : 0 < count) :
    RingInvariant (ringStart block count) :=
  ⟨⟨nofun, nofun, nofun⟩, rfl, positive, Nat.zero_le _, .inl ⟨rfl, rfl⟩⟩

theorem gfcRingPush_setter_lt (inside : ring.setter < ring.capacity) :
    (gfcRingPush ring data).setter < ring.capacity := by
  rw [UInt32.lt_iff_toNat_lt, gfcRingPush_setter inside]
  exact Nat.mod_lt _ (Nat.zero_lt_of_lt (UInt32.lt_iff_toNat_lt.mp inside))

/-- The elements in the block are among the first third of the array. -/
theorem GfcRing.InBlock.lt {index : UInt32} (inBlock : ring.InBlock index)
    (bytes : ring.bytes = sizeofRingItemP * ring.capacity.toNat) :
    3 * index.toNat < ring.capacity.toNat := by
  rw [GfcRing.InBlock, bytes, sizeofRingItem, sizeofUserData, sizeofRingItemP] at inBlock
  omega

theorem GfcRing.InBlock.inside {index : UInt32} (inBlock : ring.InBlock index)
    (bytes : ring.bytes = sizeofRingItemP * ring.capacity.toNat) : index < ring.capacity := by
  have := inBlock.lt bytes
  rw [UInt32.lt_iff_toNat_lt]
  omega

/-- So the index after one of them is not the invalid index. -/
theorem GfcRing.InBlock.valid {index : UInt32} (inBlock : ring.InBlock index)
    (bytes : ring.bytes = sizeofRingItemP * ring.capacity.toNat) :
    index + 1 ≠ gfcRingInvalidIndex := by
  have third := inBlock.lt bytes
  have small := ring.capacity.toNat_lt
  have next := toNat_add_one (inBlock.inside bytes)
  intro invalid
  rw [invalid, show gfcRingInvalidIndex.toNat = 4294967295 from rfl] at next
  omega

theorem ringInvariant_push {run next : RingRun α} (inv : RingInvariant run)
    (ok : run.KeepsPlace (.push data)) (taken : ringStep run (.push data) = some next) :
    RingInvariant next := by
  obtain ⟨inBlock, atFirst⟩ := ok
  unfold ringStep at taken
  dsimp only at taken
  split at taken
  swap
  · cases taken
  rename_i room
  cases taken
  refine ⟨⟨inv.isQueue.pops, fun i member => ?_, fun i member => ?_⟩, ?_, ?_, ?_, .inr ?_⟩
  · rw [gfcRingPush_capacity]
    rcases List.mem_cons.mp member with rfl | old
    · exact inv.setter_lt
    · exact inv.isQueue.used i old
  · rw [GfcRing.InBlock, gfcRingPush_bytes]
    rcases List.mem_cons.mp member with rfl | old
    · exact inBlock _ rfl
    · exact inv.isQueue.inBlock i old
  · rw [gfcRingPush_bytes, gfcRingPush_capacity]
    exact inv.bytes
  · rw [gfcRingPush_capacity]
    exact gfcRingPush_setter_lt inv.setter_lt
  · rw [gfcRingPush_capacity, List.length_append]
    exact room
  · rcases inv.stored with ⟨empty, unread⟩ | ⟨valid, stores⟩
    · have first := atFirst empty
      have positive : 0 < run.ring.capacity := first ▸ inv.setter_lt
      rw [unread, gfcRingPush_getter, if_pos empty]
      exact ⟨by decide, gfcRingPush_empty empty first positive⟩
    · rw [gfcRingPush_getter, if_neg valid]
      exact ⟨valid, gfcRingPush_stores stores valid room inv.setter_lt⟩

theorem ringInvariant_pop {run next : RingRun α} (inv : RingInvariant run)
    (ok : run.KeepsPlace .pop) (taken : ringStep run .pop = some next) : RingInvariant next := by
  obtain ⟨inBlock, -⟩ := ok
  obtain rfl := Option.some.inj taken
  rcases inv.stored with ⟨invalid, unread⟩ | ⟨valid, stores⟩
  · rw [gfcRingPop_empty invalid, unread]
    rw [RingCall.index, if_pos invalid]
    refine ⟨⟨fun p member => ?_, inv.isQueue.used, inv.isQueue.inBlock⟩, inv.bytes, inv.setter_lt,
      Nat.zero_le _, .inl ⟨invalid, rfl⟩⟩
    rcases List.mem_cons.mp member with rfl | old
    · rfl
    · exact inv.isQueue.pops p old
  · rw [RingCall.index, if_neg valid] at inBlock ⊢
    have read := inBlock _ rfl
    have inside := read.inside inv.bytes
    obtain ⟨oldest, rest, unread⟩ := List.exists_cons_of_ne_nil (stores.nonempty inside)
    have bounded := inv.bounded
    rw [unread] at stores bounded
    obtain ⟨value, stored⟩ := gfcRingPop_stores stores valid inside bounded
    refine ⟨⟨fun p member => ?_, fun i member => ?_, fun i member => ?_⟩, ?_, ?_, ?_, ?_⟩
    · rcases List.mem_cons.mp member with rfl | old
      · rw [value, unread]
        rfl
      · exact inv.isQueue.pops p old
    · rw [gfcRingPop_capacity]
      rcases List.mem_cons.mp member with rfl | old
      · exact inside
      · exact inv.isQueue.used i old
    · rw [GfcRing.InBlock, gfcRingPop_bytes]
      rcases List.mem_cons.mp member with rfl | old
      · exact read
      · exact inv.isQueue.inBlock i old
    · rw [gfcRingPop_bytes, gfcRingPop_capacity]
      exact inv.bytes
    · rw [gfcRingPop_setter, gfcRingPop_capacity]
      exact inv.setter_lt
    · rw [gfcRingPop_capacity, unread]
      exact Nat.le_of_lt bounded
    · rw [unread]
      rcases stored with emptied | ⟨getter, stores⟩
      · exact .inl emptied
      · exact .inr ⟨getter ▸ read.valid inv.bytes, stores⟩

theorem ringInvariant_step {run next : RingRun α} {call : RingCall α} (inv : RingInvariant run)
    (ok : run.KeepsPlace call) (taken : ringStep run call = some next) : RingInvariant next := by
  cases call with
  | push data => exact ringInvariant_push inv ok taken
  | pop => exact ringInvariant_pop inv ok taken

/-- The ring is a queue throughout every run whose calls use only elements in the block, and whose
pushes onto an empty ring find the setter at the first element. -/
theorem isQueue_of_keepsPlace (block : Nat → Option α) (count : UInt32) (positive : 0 < count)
    (trace : List (RingCall α × RingRun α))
    (run : Run (fun s a t => ringStep s a = some t) (ringStart block count) trace)
    (kept : EveryStep RingRun.KeepsPlace (ringStart block count) trace) :
    EveryState RingRun.IsQueue (ringStart block count) trace :=
  (run.everyState (ringInvariant_start block positive)
    (fun _ _ _ inv ok taken => ringInvariant_step inv ok taken) kept).mono fun _ inv => inv.isQueue

/-- Three values go through the elements of a ring of seven that lie in its block. -/
def threeThrough : List (RingCall Char) :=
  [.push (some 'a'), .push (some 'b'), .pop, .push (some 'c'), .pop, .pop]

theorem isQueue_of_keepsPlace_threeThrough :
    EveryState RingRun.IsQueue (ringStart (fun _ => none) 7)
      (traced ringStep (ringStart (fun _ => none) 7) threeThrough) :=
  isQueue_of_keepsPlace (fun _ => none) 7 (by decide) _ (run_traced _ _ _) (by decide)

/-- A ring of four elements returns the value popped before in place of the one pushed after it. -/
theorem isQueue_fails :
    ¬∀ (block : Nat → Option Char) (count : UInt32), 0 < count →
      ∀ trace, Run (fun s a t => ringStep s a = some t) (ringStart block count) trace →
        EveryState RingRun.IsQueue (ringStart block count) trace := fun every =>
  traced_fails [.push (some 'a'), .pop, .push (some 'b'), .pop] (fun _ _ _ taken => taken)
    (fun isQueue => absurd (isQueue.pops (some 'a', some 'b') (by decide)) (by decide))
    (every (fun _ => none) 4 (by decide))

end Guardwatch
