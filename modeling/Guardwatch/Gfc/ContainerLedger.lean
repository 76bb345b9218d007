import Guardwatch.Gfc.Containers
import Mathlib.Algebra.Order.BigOperators.Group.List
import Mathlib.Algebra.Order.Group.Nat

/-! The balance of the ledger over runs of calls on lists, maps and strings: its live blocks are
those of the containers that have not been released. -/

namespace Guardwatch

open Labelled

/-- The ledger is as it should be, and the live blocks are the ones listed. -/
structure Owns (mem : GcRun) (owned : List Nat) : Prop where
  ledger : LedgerInvariant mem
  nodup : owned.Nodup
  live : ∀ ptr, ptr ∈ mem.live ↔ ptr ∈ owned

variable {mem : GcRun} {owned : List Nat} {libc : Libc} {ptr : Nat} {size len : UInt64}

theorem Owns.perm (owns : Owns mem owned) {owned' : List Nat} (same : owned.Perm owned') :
    Owns mem owned' :=
  ⟨owns.ledger, same.nodup_iff.mp owns.nodup, fun ptr => (owns.live ptr).trans same.mem_iff⟩

theorem Owns.nonnull (owns : Owns mem (ptr :: owned)) : ptr ≠ 0 := by
  rintro rfl
  exact owns.ledger.nonnull ((owns.live 0).mpr List.mem_cons_self)

/-! ### One call of the ledger -/

/-- `malloc` returns a block, and the ledger has a slot for it. -/
def Allocates (libc : Libc) (size len : UInt64) (mem : GcRun) : Prop :=
  libc.malloc mem.live (len * size) ≠ 0 ∧ ¬Full mem.gc

instance (libc : Libc) (size len : UInt64) (mem : GcRun) :
    Decidable (Allocates libc size len mem) :=
  inferInstanceAs (Decidable (_ ∧ _))

/-- `realloc` returns a block. -/
def Reallocates (libc : Libc) (ptr : Nat) (size len : UInt64) (mem : GcRun) : Prop :=
  libc.realloc mem.live ptr (len * size) ≠ 0

instance (libc : Libc) (ptr : Nat) (size len : UInt64) (mem : GcRun) :
    Decidable (Reallocates libc ptr size len mem) :=
  inferInstanceAs (Decidable (_ ≠ _))

/-- The blocks are released in turn, none of them from slot 6 of a byte while slot 0 of that byte
has a block. -/
def FreesInTurn : List Nat → GcRun → Prop
  | [], _ => True
  | ptr :: rest, mem =>
    FreesApart mem ptr ∧
      FreesInTurn rest ⟨(gfcGcFree ptr mem.gc).2, mem.live.erase ptr⟩

instance FreesInTurn.decidable : ∀ ptrs mem, Decidable (FreesInTurn ptrs mem)
  | [], _ => .isTrue trivial
  | ptr :: rest, mem =>
    have := FreesInTurn.decidable rest ⟨(gfcGcFree ptr mem.gc).2, mem.live.erase ptr⟩
    inferInstanceAs (Decidable (_ ∧ _))

/-- The addresses of the blocks of a container, in the order in which they are freed. -/
def Container.blocks : Container → List Nat
  | .list address pointers _ => [pointers, address]
  | .map address data _ => [data, address]
  | .string address buffer _ => [buffer, address]

/-- Both blocks of a new container are allocated. -/
def AllocatesBoth (libc : Libc) (object part : UInt64) (parts : Nat) (mem : GcRun) : Prop :=
  Allocates libc object 1 mem ∧
    Allocates libc part (UInt64.ofNat parts) (gcMalloc libc object 1 mem).2

instance (libc : Libc) (object part : UInt64) (parts : Nat) (mem : GcRun) :
    Decidable (AllocatesBoth libc object part parts mem) :=
  inferInstanceAs (Decidable (_ ∧ _))

/-- A container is created with both its blocks, or nothing is allocated. -/
def AccountedNew (libc : Libc) (mem : GcRun) : ContainerNew → Prop
  | .listNew => AllocatesBoth libc sizeofList sizeofPointer incrementalCapacity mem
  | .mapNew =>
    (gcMalloc libc sizeofMap 1 mem).1 = 0 ∨
      AllocatesBoth libc sizeofMap sizeofMapElement initialSize mem
  | .stringNew none => (gcMalloc libc sizeofPointer 1 mem).1 = 0
  | .stringNew (some str) => AllocatesBoth libc sizeofPointer 1 (str.bytes.length + 1) mem

instance (libc : Libc) (mem : GcRun) : ∀ op, Decidable (AccountedNew libc mem op)
  | .listNew => inferInstanceAs (Decidable (AllocatesBoth ..))
  | .mapNew => inferInstanceAs (Decidable (_ ∨ AllocatesBoth ..))
  | .stringNew none => inferInstanceAs (Decidable (_ = _))
  | .stringNew (some _) => inferInstanceAs (Decidable (AllocatesBoth ..))

/-- A block that is enlarged is, and a map has room for its new element, or does not get a larger
table. -/
def AccountedChange (libc : Libc) (mem : GcRun) : ContainerChange → Container → Prop
  | .listAppend _, .list _ pointers list =>
    list.size + 1 = list.capacity →
      Reallocates libc pointers sizeofPointer (UInt64.ofNat (list.capacity + incrementalCapacity))
        mem
  | .mapPut key _, .map _ _ map =>
    gfcMapHash map key ≠ gfcErrorMapFull ∨
      (gcMalloc libc sizeofMapElement (UInt64.ofNat (2 * map.tableSize)) mem).1 = 0
  | .stringConcat (some val), .string _ buffer text =>
    Reallocates libc buffer 1 (UInt64.ofNat (text.bytes.length + val.bytes.length + 1)) mem
  | _, _ => True

instance (libc : Libc) (mem : GcRun) (op : ContainerChange) (object : Container) :
    Decidable (AccountedChange libc mem op object) := by
  unfold AccountedChange
  split <;> infer_instance

/-- The blocks are released one after the other, and `gfc_map_deep_free` has a map that is not
empty, and no value in it that is a block of the ledger. -/
def AccountedFree (mem : GcRun) (object : Container) (op : ContainerFree) : Prop :=
  FreesInTurn object.blocks mem ∧
    match object, op with
    | .map _ _ map, .mapDeepFree =>
      map.size ≠ 0 ∧ ∀ i < map.tableSize, ∀ data ∈ (map.data i).data, data ∉ mem.live
    | _, _ => True

instance (mem : GcRun) (object : Container) (op : ContainerFree) :
    Decidable (AccountedFree mem object op) := by
  unfold AccountedFree
  split <;> infer_instance

def Accounted (state : Option ContainerRun) (call : ContainerCall) : Prop :=
  match state with
  | none => True
  | some run =>
    match call.op with
    | .create op => AccountedNew call.libc run.mem op
    | .change i op => ∀ object ∈ run.objects[i]?, AccountedChange call.libc run.mem op object
    | .free i op => ∀ object ∈ run.objects[i]?, AccountedFree run.mem object op

instance (state : Option ContainerRun) (call : ContainerCall) :
    Decidable (Accounted state call) := by
  unfold Accounted
  split
  · infer_instance
  · split <;> infer_instance

/-- The live blocks are those of the containers. -/
def Settled (state : Option ContainerRun) : Prop :=
  ∃ run, state = some run ∧ Owns run.mem (run.objects.flatMap Container.blocks)

theorem held_of_empty {live : Blocks} (empty : ∀ ptr, ptr ∉ live) : held live = 0 := by
  have keys : live.keys = [] := List.eq_nil_iff_forall_not_mem.mpr fun ptr member =>
    empty ptr (AList.mem_keys.mpr member)
  have entries : live.entries = [] := List.map_eq_nil_iff.mp keys
  rw [held, entries, List.map_nil, List.sum_nil]

theorem Settled.balanced {state : Option ContainerRun} (settled : Settled state) :
    Balanced state := by
  obtain ⟨run, rfl, owns⟩ := settled
  refine ⟨run, rfl, fun released => ⟨?_, fun i inside nonnull => ?_⟩⟩
  · have empty : ∀ ptr, ptr ∉ run.mem.live := fun ptr member => by
      rw [owns.live, released] at member
      cases member
    have total := owns.ledger.total
    rw [held_of_empty empty] at total
    exact UInt64.toNat_inj.mp total
  · have at_i := slots_of_ptr nonnull inside rfl
    have stored := (owns.ledger.stores.agrees _ _).mpr ⟨i, inside, at_i⟩
    exact AList.lookup_isSome.mp (by rw [stored]; rfl)

/-- A libc with room for every block, above all that are live, and with zero bytes in it. -/
def roomyLibc : Libc where
  malloc live _ := live.keys.sum + 1
  realloc live ptr _ := (live.erase ptr).keys.sum + 1
  elements _ _ := ⟨CBuffer.zero 1024, 0, none⟩
  words _ _ := none
  malloc_fresh live _ _ member := by
    have := List.single_le_sum (fun _ _ => Nat.zero_le _) _ (AList.mem_keys.mp member)
    omega
  realloc_fresh live ptr _ _ member := by
    have := List.single_le_sum (fun _ _ => Nat.zero_le _) _ (AList.mem_keys.mp member)
    omega

def calls (ops : List ContainerOp) : List ContainerCall := ops.map (⟨·, roomyLibc⟩)

end Guardwatch
