import Mathlib.Data.List.Basic

/-! The list of `gfc_list.c`: an array of pointers that grows by ten whenever an append fills it. -/

namespace Guardwatch

def incrementalCapacity : Nat := 10

/-- The allocated array has `pointers.length` elements. -/
structure GfcList (α : Type) where
  size : Nat
  pointers : List (Option α)
  capacity : Nat

variable {α : Type}

/-- The array that `gfc_gc_realloc` returns for so many elements: the old ones, and after them what
happens to be in the block. -/
def reallocPointers (block : Nat → Option α) (pointers : List (Option α)) (capacity : Nat) :
    List (Option α) :=
  pointers.take capacity ++ ((List.range capacity).drop pointers.length).map block

def gfcListNew (block : Nat → Option α) : GfcList α :=
  { size := 0
    capacity := incrementalCapacity
    pointers := (List.range incrementalCapacity).map block }

def gfcListAppend (block : Nat → Option α) (list : GfcList α) (data : Option α) : GfcList α :=
  let list := { list with pointers := list.pointers.set list.size data, size := list.size + 1 }
  if list.size = list.capacity then
    let capacity := list.capacity + incrementalCapacity
    { list with capacity := capacity, pointers := reallocPointers block list.pointers capacity }
  else list

def gfcListGet (list : GfcList α) (index : Nat) : Option α :=
  if index ≥ list.size then none else (list.pointers[index]?).join

def gfcListSize (list : GfcList α) : Nat := list.size

def gfcListRemove (list : GfcList α) (index : Nat) : GfcList α :=
  if index ≥ list.size then list
  else
    let pointers := (List.range' index (list.size - 1 - index)).foldl
      (fun pointers i => pointers.set i (pointers[i + 1]?).join) list.pointers
    { list with pointers := pointers.set (list.size - 1) none, size := list.size - 1 }

/-- The loop of `gfc_list_clear` from `i` on, which compares `i` with the size that it reduces. -/
def clearItems : (left : Nat) → (i : Nat) → GfcList α → GfcList α
  | 0, _, list => list
  | left + 1, i, list =>
    if i < list.size then clearItems left (i + 1) (gfcListRemove list 0) else list

def gfcListClear (list : GfcList α) : GfcList α :=
  { clearItems list.size 0 list with size := 0 }

/-- The list has the items, and room for one more. -/
structure GfcList.Represents (list : GfcList α) (items : List (Option α)) : Prop where
  size_eq : list.size = items.length
  allocated : list.pointers.length = list.capacity
  room : list.size < list.capacity
  stored : list.pointers.take list.size = items

theorem gfcListNew_represents (block : Nat → Option α) : (gfcListNew block).Represents [] :=
  ⟨rfl, by simp [gfcListNew], Nat.zero_lt_succ 9, rfl⟩

theorem gfcListAppend_represents {list : GfcList α} {items : List (Option α)}
    (r : list.Represents items) (block : Nat → Option α) (data : Option α) :
    (gfcListAppend block list data).Represents (items ++ [data]) := by
  have inside : list.size < list.pointers.length := by
    rw [r.allocated]
    exact r.room
  have stored : (list.pointers.set list.size data).take (list.size + 1) = items ++ [data] := by
    rw [List.take_add_one, List.take_set_of_le (Nat.le_refl _), r.stored]
    simp [inside]
  have size_eq : list.size + 1 = (items ++ [data]).length := by
    simp [r.size_eq]
  have allocated := r.allocated
  unfold gfcListAppend
  dsimp only
  split
  · rename_i full
    refine ⟨size_eq, ?_, ?_, ?_⟩
    · simp only [reallocPointers, List.length_append, List.length_take, List.length_set,
        List.length_map, List.length_drop, List.length_range]
      omega
    · show list.size + 1 < list.capacity + incrementalCapacity
      unfold incrementalCapacity
      omega
    · show (reallocPointers block _ _).take (list.size + 1) = _
      have short : list.size + 1 ≤ ((list.pointers.set list.size data).take
          (list.capacity + incrementalCapacity)).length := by
        simp only [List.length_take, List.length_set]
        omega
      rw [reallocPointers, List.take_append_of_le_length short, List.take_take,
        Nat.min_eq_left (by omega), stored]
  · rename_i roomy
    refine ⟨size_eq, by simpa using allocated, ?_, stored⟩
    have := r.room
    show list.size + 1 < list.capacity
    omega

theorem gfcListGet_represents {list : GfcList α} {items : List (Option α)}
    (r : list.Represents items) (i : Nat) : gfcListGet list i = (items[i]?).join := by
  have size_eq := r.size_eq
  unfold gfcListGet
  split
  · rw [List.getElem?_eq_none (by omega), Option.join_none]
  · rw [← r.stored, List.getElem?_take_of_lt (by omega)]

theorem foldlM_range_getElem? {β σ : Type} (f : σ → β → Option σ) (l : List β) (s : σ) :
    (List.range l.length).foldlM (fun s i => (l[i]?).bind (f s)) s = l.foldlM f s := by
  induction l generalizing s with
  | nil => rfl
  | cons x rest ih =>
    rw [List.length_cons, List.range_succ_eq_map, List.foldlM_cons, List.foldlM_cons,
      List.getElem?_cons_zero, Option.bind_some]
    congr 1
    funext t
    rw [List.foldlM_map]
    exact ih t

theorem gfcListSize_items {list : GfcList α} {items : List α}
    (r : list.Represents (items.map some)) : gfcListSize list = items.length := by
  rw [gfcListSize, r.size_eq, List.length_map]

theorem gfcListGet_items {list : GfcList α} {items : List α}
    (r : list.Represents (items.map some)) (i : Nat) : gfcListGet list i = items[i]? := by
  rw [gfcListGet_represents r, List.getElem?_map]
  cases items[i]? <;> rfl

/-- A loop over the indices is a loop over the items. -/
theorem foldlM_gfcListGet {σ : Type} {list : GfcList α} {items : List α}
    (r : list.Represents (items.map some)) (f : σ → α → Option σ) (s : σ) :
    (List.range (gfcListSize list)).foldlM (fun s i => (gfcListGet list i).bind (f s)) s =
      items.foldlM f s := by
  simp only [gfcListSize_items r, gfcListGet_items r]
  exact foldlM_range_getElem? f items s

theorem filterMap_range_getElem? {β : Type} (f : α → Option β) (l : List α) :
    (List.range l.length).filterMap (fun i => (l[i]?).bind f) = l.filterMap f := by
  induction l with
  | nil => rfl
  | cons x rest ih =>
    rw [List.length_cons, List.range_succ_eq_map, List.filterMap_cons, List.filterMap_cons,
      List.getElem?_cons_zero, Option.bind_some, List.filterMap_map]
    exact congrArg (fun tail => match f x with | none => tail | some b => b :: tail) ih

/-- What a loop over the indices finds, it finds in the items. -/
theorem filterMap_gfcListGet {β : Type} {list : GfcList α} {items : List α}
    (r : list.Represents (items.map some)) (f : α → Option β) :
    (List.range (gfcListSize list)).filterMap (fun i => (gfcListGet list i).bind f) =
      items.filterMap f := by
  simp only [gfcListSize_items r, gfcListGet_items r]
  exact filterMap_range_getElem? f items

end Guardwatch
