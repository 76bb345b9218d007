import Guardwatch.Gfc.List
import Guardwatch.Lib.Recorder
import Guardwatch.Lib.Runs
import Mathlib.Data.UInt

/-! The list as a sequence: what appends, removes and clears do to the items that a list represents,
with every access of the array of pointers inside it. -/

namespace Guardwatch

open Recording Labelled

variable {α : Type}

/-- An access of the array of pointers, of `allocated` elements. -/
structure ListAccess where
  index : Nat
  allocated : Nat

def ListAccess.Inside (access : ListAccess) : Prop := access.index < access.allocated

instance (access : ListAccess) : Decidable access.Inside :=
  inferInstanceAs (Decidable (_ < _))

abbrev ListProgram (α : Type) := Recorder ListAccess (GfcList α)

def readPointer (i : Nat) : ListProgram α (Option α) :=
  reads (fun list => ⟨i, list.pointers.length⟩) fun list => (list.pointers[i]?).join

def writePointer (i : Nat) (data : Option α) : ListProgram α Unit :=
  writes (fun list => ⟨i, list.pointers.length⟩) fun list =>
    { list with pointers := list.pointers.set i data }

def setSize (size : Nat) : ListProgram α Unit := change fun list => { list with size := size }

/-- `gfc_list_append` with its accesses. -/
def appendAccesses (block : Nat → Option α) (data : Option α) : ListProgram α Unit := do
  let list ← look
  writePointer list.size data
  setSize (list.size + 1)
  if list.size + 1 = list.capacity then
    change fun list =>
      { list with
        capacity := list.capacity + incrementalCapacity
        pointers := reallocPointers block list.pointers (list.capacity + incrementalCapacity) }
  else return ()

/-- The loop of `gfc_list_remove`. -/
def shiftPointers : List Nat → ListProgram α Unit
  | [] => pure ()
  | i :: rest => do
    let data ← readPointer (i + 1)
    writePointer i data
    shiftPointers rest

/-- `gfc_list_remove` with its accesses. -/
def removeAccesses (index : Nat) : ListProgram α Unit := do
  let list ← look
  if index ≥ list.size then return ()
  else
    shiftPointers (List.range' index (list.size - 1 - index))
    writePointer (list.size - 1) none
    setSize (list.size - 1)

/-- The loop of `gfc_list_clear`. -/
def clearLoop : Nat → Nat → ListProgram α Unit
  | 0, _ => pure ()
  | left + 1, i => do
    let list ← look
    if i < list.size then
      removeAccesses 0
      clearLoop left (i + 1)
    else return ()

/-- `gfc_list_clear` with its accesses. -/
def clearAccesses : ListProgram α Unit := do
  let list ← look
  clearLoop list.size 0
  setSize 0

/-- `gfc_list_get` with its access. -/
def getAccesses (index : Nat) : ListProgram α (Option α) := do
  let list ← look
  if index ≥ list.size then return none
  else readPointer index

/-! ### The programs compute what the list's operations do -/

abbrev ListWithin {β : Type} (program : ListProgram α β) (list : GfcList α) (value : β)
    (list' : GfcList α) : Prop :=
  Within ListAccess.Inside program list value list'

theorem readPointer_within {list : GfcList α} {i : Nat} (inside : i < list.pointers.length) :
    ListWithin (readPointer i) list (list.pointers[i]?).join list := by
  apply Within.reads
  exact inside

theorem writePointer_within {list : GfcList α} {i : Nat} (inside : i < list.pointers.length)
    (data : Option α) :
    ListWithin (writePointer i data) list () { list with pointers := list.pointers.set i data } := by
  apply Within.writes
  exact inside

theorem appendAccesses_within {list : GfcList α} (inside : list.size < list.pointers.length)
    (block : Nat → Option α) (data : Option α) :
    ListWithin (appendAccesses block data) list () (gfcListAppend block list data) := by
  apply (Within.look list).bind
  apply (writePointer_within inside data).bind
  apply (Within.change _ _).bind
  unfold gfcListAppend
  by_cases full : list.size + 1 = list.capacity
  · rw [if_pos full, if_pos full]
    exact Within.change _ _
  · rw [if_neg full, if_neg full]
    exact Within.pure _ _

theorem shiftPointers_within {list : GfcList α} {visit : List Nat}
    (inside : ∀ i ∈ visit, i + 1 < list.pointers.length) :
    ListWithin (shiftPointers visit) list ()
      { list with
        pointers := visit.foldl (fun pointers i => pointers.set i (pointers[i + 1]?).join)
          list.pointers } := by
  induction visit generalizing list with
  | nil => exact Within.pure _ _
  | cons i rest ih =>
    obtain ⟨inside_i, inside⟩ := List.forall_mem_cons.mp inside
    apply (readPointer_within inside_i).bind
    apply (writePointer_within (Nat.lt_of_succ_lt inside_i) _).bind
    apply ih
    intro j member
    rw [List.length_set]
    exact inside j member

theorem length_shifted (visit : List Nat) (pointers : List (Option α)) :
    (visit.foldl (fun pointers i => pointers.set i (pointers[i + 1]?).join) pointers).length =
      pointers.length := by
  induction visit generalizing pointers with
  | nil => rfl
  | cons i rest ih =>
    rw [List.foldl_cons, ih, List.length_set]

theorem removeAccesses_within {list : GfcList α} (allocated : list.size ≤ list.pointers.length)
    (index : Nat) : ListWithin (removeAccesses index) list () (gfcListRemove list index) := by
  apply (Within.look list).bind
  unfold gfcListRemove
  by_cases outside : index ≥ list.size
  · rw [if_pos outside, if_pos outside]
    exact Within.pure _ _
  · rw [if_neg outside, if_neg outside]
    have inside : ∀ i ∈ List.range' index (list.size - 1 - index), i + 1 < list.pointers.length := by
      intro i member
      have := List.mem_range'_1.mp member
      omega
    apply (shiftPointers_within inside).bind
    refine (writePointer_within ?_ none).bind (Within.change _ _)
    rw [length_shifted]
    omega

theorem getAccesses_within {list : GfcList α} (allocated : list.size ≤ list.pointers.length)
    (index : Nat) : ListWithin (getAccesses index) list (gfcListGet list index) list := by
  apply (Within.look list).bind
  unfold gfcListGet
  by_cases outside : index ≥ list.size
  · rw [if_pos outside, if_pos outside]
    exact Within.pure _ _
  · rw [if_neg outside, if_neg outside]
    apply readPointer_within
    omega

/-! ### What a remove and a clear leave -/

/-- The shift moves the elements after the index one place down, and leaves the others. -/
theorem getElem?_shifted {index n : Nat} {pointers : List (Option α)}
    (inside : index + n < pointers.length) (k : Nat) :
    ((List.range' index n).foldl (fun pointers i => pointers.set i (pointers[i + 1]?).join)
      pointers)[k]? = if index ≤ k ∧ k < index + n then pointers[k + 1]? else pointers[k]? := by
  induction n generalizing index pointers with
  | zero =>
    have never : ¬(index ≤ k ∧ k < index + 0) := by omega
    rw [if_neg never]
    rfl
  | succ n ih =>
    rw [List.range'_succ, List.foldl_cons, ih (by rw [List.length_set]; omega)]
    by_cases here : k = index
    · subst here
      have next : k + 1 < pointers.length := by omega
      rw [if_neg (by omega), if_pos (by omega), List.getElem?_set_self (by omega),
        List.getElem?_eq_getElem next]
      rfl
    · by_cases moved : index + 1 ≤ k ∧ k < index + 1 + n
      · rw [if_pos moved, if_pos (by omega), List.getElem?_set_ne (by omega)]
      · rw [if_neg moved, if_neg (by omega), List.getElem?_set_ne (Ne.symm here)]

theorem gfcListRemove_represents {list : GfcList α} {items : List (Option α)}
    (r : list.Represents items) (index : Nat) :
    (gfcListRemove list index).Represents (items.eraseIdx index) := by
  have size_eq := r.size_eq
  have allocated := r.allocated
  have room := r.room
  unfold gfcListRemove
  by_cases outside : index ≥ list.size
  · rw [if_pos outside, List.eraseIdx_of_length_le (by omega)]
    exact r
  · rw [if_neg outside]
    refine ⟨?_, ?_, ?_, ?_⟩
    · rw [List.length_eraseIdx_of_lt (by omega)]
      show list.size - 1 = _
      omega
    · show (List.set _ _ _).length = _
      rw [List.length_set, length_shifted, allocated]
    · show list.size - 1 < list.capacity
      omega
    · apply List.ext_getElem?
      intro k
      show ((List.set _ _ _).take (list.size - 1))[k]? = _
      rw [List.getElem?_eraseIdx, ← r.stored]
      by_cases below : k < list.size - 1
      · rw [List.getElem?_take_of_lt below, List.getElem?_set_ne (by omega),
          getElem?_shifted (by omega)]
        by_cases before : k < index
        · rw [if_neg (by omega), if_pos before, List.getElem?_take_of_lt (by omega)]
        · rw [if_pos (by omega), if_neg before, List.getElem?_take_of_lt (by omega)]
      · rw [List.getElem?_take_eq_none (by omega), if_neg (by omega),
          List.getElem?_take_eq_none (by omega)]

/-- The loop of `gfc_list_clear` removes first items, each within the array. -/
theorem clearLoop_within {list : GfcList α} {items : List (Option α)} (r : list.Represents items)
    (left i : Nat) :
    ListWithin (clearLoop left i) list () (clearItems left i list) ∧
      ∃ rest, (clearItems left i list).Represents rest := by
  induction left generalizing list items i with
  | zero => exact ⟨Within.pure _ _, items, r⟩
  | succ left ih =>
    have allocated : list.size ≤ list.pointers.length := by
      rw [r.allocated]
      exact Nat.le_of_lt r.room
    rw [clearItems]
    by_cases more : i < list.size
    · rw [if_pos more]
      obtain ⟨within, rest, represents⟩ := ih (gfcListRemove_represents r 0) (i + 1)
      refine ⟨?_, rest, represents⟩
      apply (Within.look list).bind
      rw [if_pos more]
      exact (removeAccesses_within allocated 0).bind within
    · rw [if_neg more]
      refine ⟨?_, items, r⟩
      apply (Within.look list).bind
      rw [if_neg more]
      exact Within.pure _ _

theorem clearAccesses_within {list : GfcList α} {items : List (Option α)}
    (r : list.Represents items) : ListWithin clearAccesses list () (gfcListClear list) := by
  apply (Within.look list).bind
  exact (clearLoop_within r list.size 0).1.bind (Within.change _ _)

theorem gfcListClear_represents {list : GfcList α} {items : List (Option α)}
    (r : list.Represents items) : (gfcListClear list).Represents [] := by
  obtain ⟨-, rest, cleared⟩ := clearLoop_within r list.size 0
  exact ⟨rfl, cleared.allocated, Nat.zero_lt_of_lt cleared.room, rfl⟩

/-! ### Runs -/

inductive ListOp (α : Type)
  | append (data : Option α) (block : Nat → Option α)
  | remove (index : Nat)
  | get (index : Nat)
  | clear

/-- A call, with what it returns where it returns something. -/
def ListOp.program : ListOp α → ListProgram α (Option α)
  | .append data block => do
    appendAccesses block data
    return none
  | .remove index => do
    removeAccesses index
    return none
  | .get index => getAccesses index
  | .clear => do
    clearAccesses
    return none

/-- The sequence that a call leaves. -/
def ListOp.sequence (items : List (Option α)) : ListOp α → List (Option α)
  | .append data _ => items ++ [data]
  | .remove index => items.eraseIdx index
  | .get _ => items
  | .clear => []

/-- A list, the sequence that the calls on it make, and the accesses of the last call. -/
structure ListRun (α : Type) where
  list : GfcList α
  items : List (Option α)
  accesses : List ListAccess

/-- The counters are `int`, so a list has less than 2^31 items. -/
def listStep (s : ListRun α) (op : ListOp α) : Option (ListRun α) :=
  if (op.sequence s.items).length < 2 ^ 31 then
    some ⟨(op.program.run s.list).state, op.sequence s.items, (op.program.run s.list).records⟩
  else none

def ListSteps (s : ListRun α) (op : ListOp α) (t : ListRun α) : Prop := listStep s op = some t

def listStart (block : Nat → Option α) : ListRun α := ⟨gfcListNew block, [], []⟩

structure SequenceKept (s : ListRun α) : Prop where
  size : gfcListSize s.list = s.items.length
  get : ∀ index, gfcListGet s.list index = (s.items[index]?).join
  room : s.list.size < s.list.capacity
  accesses : ∀ access ∈ s.accesses, access.Inside

/-- What a call does to the items that the list represents. -/
theorem ListOp.program_within {list : GfcList α} {items : List (Option α)}
    (r : list.Represents items) (op : ListOp α) :
    ∃ value list', ListWithin op.program list value list' ∧ list'.Represents (op.sequence items) := by
  have inside : list.size < list.pointers.length := by
    rw [r.allocated]
    exact r.room
  have allocated := Nat.le_of_lt inside
  cases op with
  | append data block =>
    exact ⟨none, _, (appendAccesses_within inside block data).bind (Within.pure _ _),
      gfcListAppend_represents r block data⟩
  | remove index =>
    exact ⟨none, _, (removeAccesses_within allocated index).bind (Within.pure _ _),
      gfcListRemove_represents r index⟩
  | get index => exact ⟨_, _, getAccesses_within allocated index, r⟩
  | clear =>
    exact ⟨none, _, (clearAccesses_within r).bind (Within.pure _ _), gfcListClear_represents r⟩

structure ListInvariant (s : ListRun α) : Prop where
  represents : s.list.Represents s.items
  accesses : ∀ access ∈ s.accesses, access.Inside

theorem ListInvariant.kept {s : ListRun α} (invariant : ListInvariant s) : SequenceKept s :=
  ⟨invariant.represents.size_eq, gfcListGet_represents invariant.represents,
    invariant.represents.room, invariant.accesses⟩

theorem listInvariant_step {s t : ListRun α} {op : ListOp α} (invariant : ListInvariant s)
    (step : ListSteps s op t) : ListInvariant t := by
  obtain ⟨-, step⟩ := Option.ite_none_right_eq_some.mp step
  obtain rfl := Option.some.inj step
  obtain ⟨value, list', within, represents⟩ := op.program_within invariant.represents
  exact ⟨within.state_eq ▸ represents, within.records⟩

/-- The list is the sequence that its calls make, and every access is inside the array. -/
theorem listIsSequence {block : Nat → Option α} {trace : List (ListOp α × ListRun α)}
    (run : Run ListSteps (listStart block) trace) :
    EveryState SequenceKept (listStart block) trace :=
  (run.invariant (J := ListInvariant) ⟨gfcListNew_represents block, nofun⟩
    fun _ _ _ invariant step => listInvariant_step invariant step).mono
    fun _ invariant => invariant.kept

/-- Eleven appends, of which the tenth enlarges the array, and a call of each other kind. -/
def shuffled : List (ListOp Nat) :=
  (List.range 11).map (fun i => .append (some i) fun _ => none) ++
    [.remove 3, .remove 20, .get 4, .clear, .append none fun _ => none]

theorem listIsSequence_shuffled :
    EveryState SequenceKept (listStart fun _ => none)
      (traced listStep (listStart fun _ => none) shuffled) :=
  listIsSequence (run_traced listStep _ shuffled)

end Guardwatch
