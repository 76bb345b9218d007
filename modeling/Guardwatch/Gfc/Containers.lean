import Guardwatch.Gfc.GcLedger
import Guardwatch.Gfc.List
import Guardwatch.Gfc.Map

/-! Lists, maps and strings on the ledger: their calls with every block that they allocate and
release. -/

namespace Guardwatch

open Labelled

abbrev Blocks := AList fun _ : Nat => UInt64

/-- What libc does during a call: the addresses it returns, `NULL` or one of no live block, and what
is in the blocks. -/
structure Libc where
  malloc : Blocks → UInt64 → Nat
  realloc : Blocks → Nat → UInt64 → Nat
  elements : Nat → Nat → GfcMapElement Nat
  words : Nat → Nat → Option Nat
  malloc_fresh : ∀ live bytes, malloc live bytes ≠ 0 → malloc live bytes ∉ live
  realloc_fresh : ∀ live ptr bytes, realloc live ptr bytes ≠ 0 →
    realloc live ptr bytes ∉ live.erase ptr

/-! ### The ledger and the heap -/

/-- What the ledger would have in slots that it adds does not matter: the program counts as stopped
where it does so. -/
def gcMalloc (libc : Libc) (size len : UInt64) (mem : GcRun) : Nat × GcRun :=
  let ret := libc.malloc mem.live (len * size)
  let (ret, gc) := gfcGcMalloc clearGrowth ret size len mem.gc
  (ret, ⟨gc, if ret = 0 then mem.live else mem.live.insert ret (len * size)⟩)

/-- `none` is the failed assertion of `gfc_gc_realloc`. Where `realloc` returns `NULL` the old block
stays live. -/
def gcRealloc (libc : Libc) (ptr : Nat) (size len : UInt64) (mem : GcRun) :
    Option (Nat × GcRun) :=
  if ptr = 0 then some (0, mem)
  else do
    let ret := libc.realloc mem.live ptr (len * size)
    let (ret, gc) ← gfcGcRealloc ptr ret size len mem.gc
    some (ret, ⟨gc, if ret = 0 then mem.live else (mem.live.erase ptr).insert ret (len * size)⟩)

/-- `gfc_gc_free` with the assertion that follows it in every container; `none` is its failure. -/
def gcFree (mem : GcRun) (ptr : Nat) : Option GcRun :=
  let (rc, gc) := gfcGcFree ptr mem.gc
  if rc = gfcGcOk then some ⟨gc, mem.live.erase ptr⟩ else none

def gcFrees (ptrs : List Nat) (mem : GcRun) : Option GcRun := ptrs.foldlM gcFree mem

/-- `free` of libc, of which the ledger does not know. A block that is not in the ledger belongs to
the caller. -/
def libcFree (ptr : Nat) (mem : GcRun) : GcRun :=
  if ptr ∈ mem.live then { mem with live := mem.live.erase ptr } else mem

/-! ### The containers -/

inductive Container
  | list (address pointers : Nat) (list : GfcList Nat)
  | map (address data : Nat) (map : GfcMap Nat)
  | string (address buffer : Nat) (text : CText)

def sizeofList : UInt64 := 24
def sizeofPointer : UInt64 := 8
def sizeofMap : UInt64 := 16
def sizeofMapElement : UInt64 := 1040

/-! In these functions `none` is a program that has stopped: at an assertion that fails, or a write
to `NULL`. -/

def listNew (libc : Libc) (mem : GcRun) : Option (GcRun × Container) :=
  let (address, mem) := gcMalloc libc sizeofList 1 mem
  if address = 0 then none
  else
    let (pointers, mem) := gcMalloc libc sizeofPointer (UInt64.ofNat incrementalCapacity) mem
    some (mem, .list address pointers (gfcListNew (libc.words pointers)))

def listAppend (libc : Libc) (mem : GcRun) (address pointers : Nat) (list : GfcList Nat)
    (data : Option Nat) : Option (GcRun × Container) :=
  if pointers = 0 then none
  else if list.size + 1 = list.capacity then do
    let capacity := list.capacity + incrementalCapacity
    let (pointers, mem) ← gcRealloc libc pointers sizeofPointer (UInt64.ofNat capacity) mem
    some (mem, .list address pointers (gfcListAppend (libc.words pointers) list data))
  else some (mem, .list address pointers (gfcListAppend (libc.words pointers) list data))

/-- `gfc_map_new` returns `NULL` without the block of the map. Without the table it calls
`gfc_map_free`, which frees the `NULL` of the table. -/
def mapNew (libc : Libc) (mem : GcRun) : Option (GcRun × Option Container) :=
  let (address, mem) := gcMalloc libc sizeofMap 1 mem
  if address = 0 then some (mem, none)
  else
    let (data, mem) := gcMalloc libc sizeofMapElement (UInt64.ofNat initialSize) mem
    if data = 0 then (gcFrees [data, address] mem).map (·, none)
    else
      some (mem, some (.map address data {
        tableSize := initialSize
        size := 0
        data := fun i => { libc.elements data i with data := none } }))

/-- A map with the address of its table. -/
structure MapTable where
  mem : GcRun
  data : Nat
  map : GfcMap Nat

/-- The loop of `gfc_map_rehash` over the elements of the old table. -/
def putElements (put : MapTable → MapKey → Option Nat → Option (Nat × MapTable))
    (curr : Nat → GfcMapElement Nat) : List Nat → MapTable → Option (Nat × MapTable)
  | [], table => some (gfcErrorMapOk, table)
  | i :: rest, table =>
    if (curr i).inUse = 0 then putElements put curr rest table
    else do
      let (status, table) ← put table (curr i).key (curr i).data
      if status ≠ gfcErrorMapOk then some (status, table)
      else putElements put curr rest table

/-- `gfc_map_rehash`. The old table is released by `free`, and not at all after an error. -/
def mapRehash (libc : Libc) (put : MapTable → MapKey → Option Nat → Option (Nat × MapTable))
    (table : MapTable) : Option (Nat × MapTable) := do
  let tableSize := 2 * table.map.tableSize
  let (temp, mem) := gcMalloc libc sizeofMapElement (UInt64.ofNat tableSize) table.mem
  if temp = 0 then some (gfcErrorMapOutOfMemory, { table with mem := mem })
  else
    let curr := table.data
    let (status, rehashed) ← putElements put table.map.data (List.range table.map.tableSize)
      { mem := mem, data := temp
        map := { tableSize := tableSize, size := 0, data := libc.elements temp } }
    if status ≠ gfcErrorMapOk then some (status, rehashed)
    else some (gfcErrorMapOk, { rehashed with mem := libcFree curr rehashed.mem })

/-- `gfc_map_put`; `none` is a call whose calls are nested more than `fuel` deep. -/
def mapPut (libc : Libc) (fuel : Nat) (table : MapTable) (key : MapKey) (value : Option Nat) :
    Option (Nat × MapTable) :=
  let index := gfcMapHash table.map key
  if index ≠ gfcErrorMapFull then
    some (gfcErrorMapOk, { table with map := storeAt table.map index key value })
  else
    match fuel with
    | 0 => none
    | fuel + 1 => do
      let (status, table) ← mapRehash libc (mapPut libc fuel) table
      if status = gfcErrorMapOutOfMemory then some (gfcErrorMapOutOfMemory, table)
      else mapPut libc fuel table key value

/-- The loop of `gfc_map_deep_free` over the table. -/
def freeData (map : GfcMap Nat) (mem : GcRun) : GcRun :=
  (List.range map.tableSize).foldl (fun mem i =>
    match (map.data i).data with
    | none => mem
    | some data => libcFree data mem) mem

/-- `gfc_map_deep_free`, whose comparison is with an unsigned size. -/
def mapDeepFree (mem : GcRun) (address data : Nat) (map : GfcMap Nat) : Option GcRun :=
  if map.size = 0 then some mem else gcFrees [data, address] (freeData map mem)

/-- `gfc_string_new`, which allocates before it looks at the text. -/
def stringNew (libc : Libc) (mem : GcRun) (str : Option CText) :
    Option (GcRun × Option Container) :=
  let (address, mem) := gcMalloc libc sizeofPointer 1 mem
  match str with
  | none => some (mem, none)
  | some str =>
    if address = 0 then none
    else
      let (buffer, mem) := gcMalloc libc 1 (UInt64.ofNat (str.bytes.length + 1)) mem
      if buffer = 0 then none else some (mem, some (.string address buffer str))

def stringConcat (libc : Libc) (mem : GcRun) (address buffer : Nat) (text : CText)
    (val : Option CText) : Option (GcRun × Container) :=
  match val with
  | none => some (mem, .string address buffer text)
  | some val => do
    let len := UInt64.ofNat (text.bytes.length + val.bytes.length + 1)
    let (buffer, mem) ← gcRealloc libc buffer 1 len mem
    if buffer = 0 then none else some (mem, .string address buffer (.concat [text, val]))

/-! ### Runs -/

inductive ContainerNew
  | listNew
  | mapNew
  | stringNew (str : Option CText)

inductive ContainerChange
  | listAppend (data : Option Nat)
  | listRemove (index : Nat)
  | listGet (index : Nat)
  | listClear
  | mapPut (key : MapKey) (value : Option Nat)
  | mapGet (key : MapKey)
  | mapRemove (key : MapKey)
  | stringConcat (val : Option CText)

inductive ContainerFree
  | listFree
  | mapFree
  | mapDeepFree
  | stringFree

inductive ContainerOp
  | create (op : ContainerNew)
  | change (i : Nat) (op : ContainerChange)
  | free (i : Nat) (op : ContainerFree)

structure ContainerCall where
  op : ContainerOp
  libc : Libc

/-- The ledger with the live blocks, and the containers that have not been released. -/
structure ContainerRun where
  mem : GcRun
  objects : List Container

def created (libc : Libc) (mem : GcRun) : ContainerNew → Option (GcRun × Option Container)
  | .listNew => (listNew libc mem).map fun (mem, list) => (mem, some list)
  | .mapNew => mapNew libc mem
  | .stringNew str => stringNew libc mem str

/-- A call on a container; the inner `none` is a program that has stopped, and there is no step for
a call on another kind of container, or one that is nested more than `fuel` deep. -/
def changed (libc : Libc) (fuel : Nat) (mem : GcRun) :
    Container → ContainerChange → Option (Option (GcRun × Container))
  | .list address pointers list, .listAppend data =>
    some (listAppend libc mem address pointers list data)
  | .list address pointers list, .listRemove index =>
    some (some (mem, .list address pointers (gfcListRemove list index)))
  | .list address pointers list, .listGet _ => some (some (mem, .list address pointers list))
  | .list address pointers list, .listClear =>
    some (some (mem, .list address pointers (gfcListClear list)))
  | .map address data map, .mapPut key value =>
    (mapPut libc fuel ⟨mem, data, map⟩ key value).map fun (_, table) =>
      some (table.mem, .map address table.data table.map)
  | .map address data map, .mapGet _ => some (some (mem, .map address data map))
  | .map address data map, .mapRemove key =>
    some (some (mem, .map address data (gfcMapRemove map key).2))
  | .string address buffer text, .stringConcat val =>
    some (stringConcat libc mem address buffer text val)
  | _, _ => none

/-- A release; the results are as above. -/
def freed (mem : GcRun) : Container → ContainerFree → Option (Option GcRun)
  | .list address pointers _, .listFree => some (gcFrees [pointers, address] mem)
  | .map address data _, .mapFree => some (gcFrees [data, address] mem)
  | .map address data map, .mapDeepFree => some (mapDeepFree mem address data map)
  | .string address buffer _, .stringFree => some (gcFrees [buffer, address] mem)
  | _, _ => none

/-- The program has not stopped, and once every container is released the total is what it was and
no slot has the address of a released block. -/
def Balanced (state : Option ContainerRun) : Prop :=
  ∃ run, state = some run ∧ (run.objects = [] →
    gfcGcTotal run.mem.gc = gfcGcTotal gcStart.gc ∧
      ∀ i < run.mem.gc.len, (run.mem.gc.ptrs i).ptr ≠ 0 → (run.mem.gc.ptrs i).ptr ∈ run.mem.live)

end Guardwatch
