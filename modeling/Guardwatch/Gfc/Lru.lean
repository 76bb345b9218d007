import Guardwatch.Lib.LinkedList
import Guardwatch.Lib.Runs
import Mathlib.Data.UInt
import Mathlib.Logic.Function.Basic

/-! The cache of `gfc_lru.c`: a table of chains of items, whose items go to a free list when they
are removed or evicted. -/

namespace Guardwatch

open Labelled

/-- The bytes of a key. -/
structure LruKey where
  bytes : List UInt8
  fits : bytes.length < 2 ^ 32
deriving DecidableEq

def LruKey.length (key : LruKey) : UInt32 := UInt32.ofNat key.bytes.length

/-- `gfc_lru_item_t`. The item's key is a pointer to a buffer, and `next` one to an item. -/
structure LruItem (α : Type) where
  value : Option α
  key : Option Nat
  valueLength : UInt32
  keyLength : UInt32
  accessCount : UInt64
  next : Option Nat

def LruItem.zero {α : Type} : LruItem α :=
  { value := none, key := none, valueLength := 0, keyLength := 0, accessCount := 0, next := none }

/-- `gfc_lru_t` with the items that have been allocated, which are those before `itemCount`, and the
key buffers: those before `keyCount` have been passed to the cache, and `none` is a freed one. -/
structure GfcLru (α : Type) where
  items : Nat → Option Nat
  accessCount : UInt64
  freeMemory : UInt64
  hashTableSize : UInt32
  seed : UInt64
  freeItems : Option Nat
  heap : Nat → LruItem α
  itemCount : Nat
  keys : Nat → Option LruKey
  keyCount : Nat

variable {α : Type}

def gfcLruNew (cacheSize : UInt64) (averageLength : UInt32) (time : UInt64) : GfcLru α :=
  { items := fun _ => none
    accessCount := 0
    freeMemory := cacheSize
    hashTableSize := (cacheSize / averageLength.toUInt64).toUInt32
    seed := time
    freeItems := none
    heap := fun _ => .zero
    itemCount := 0
    keys := fun _ => none
    keyCount := 0 }

/-- A `char` of the key as the 32 bits to which it is promoted. -/
def signedByte (byte : UInt8) : UInt32 := byte.toInt8.toInt32.toUInt32

def murmurM : UInt32 := 0x5bd1e995

/-- The loop over the words of the key and the switch over the bytes behind them. -/
def murmurBytes : (h : UInt32) → List UInt8 → UInt32
  | h, byte0 :: byte1 :: byte2 :: byte3 :: data =>
    let k := byte0.toUInt32 ||| byte1.toUInt32 <<< 8 ||| byte2.toUInt32 <<< 16 |||
      byte3.toUInt32 <<< 24
    let k := k * murmurM
    let k := k ^^^ k >>> 24
    let k := k * murmurM
    murmurBytes (h * murmurM ^^^ k) data
  | h, [byte0, byte1, byte2] =>
    (h ^^^ signedByte byte2 <<< 16 ^^^ signedByte byte1 <<< 8 ^^^ signedByte byte0) * murmurM
  | h, [byte0, byte1] => (h ^^^ signedByte byte1 <<< 8 ^^^ signedByte byte0) * murmurM
  | h, [byte0] => (h ^^^ signedByte byte0) * murmurM
  | h, [] => h

def gfcLruHash (lru : GfcLru α) (key : LruKey) : Nat :=
  let h := murmurBytes (lru.seed ^^^ key.length.toUInt64).toUInt32 key.bytes
  let h := h ^^^ h >>> 13
  let h := h * murmurM
  let h := h ^^^ h >>> 15
  (h % lru.hashTableSize).toNat

namespace GfcLru

/-- The item at the address. -/
def setItem (lru : GfcLru α) (at' : Nat) (item : LruItem α) : GfcLru α :=
  { lru with heap := Function.update lru.heap at' item }

/-- `free` of a key, and `none` where its buffer has been freed before. -/
def freeKey (lru : GfcLru α) : Option Nat → Option (GfcLru α)
  | none => some lru
  | some buffer =>
    if (lru.keys buffer).isSome then
      some { lru with keys := Function.update lru.keys buffer none }
    else none

/-- The assignment to the link that leads to an item: the link of the item before it, or the table's
where it is the first. -/
def setLink (lru : GfcLru α) (prev : Option Nat) (hashIndex : Nat) (target : Option Nat) :
    GfcLru α :=
  match prev with
  | some prev => lru.setItem prev { lru.heap prev with next := target }
  | none => { lru with items := Function.update lru.items hashIndex target }

end GfcLru

/-- Whether the keys differ, and `none` where a freed key is read. -/
def gfcLruCompare (lru : GfcLru α) (item : LruItem α) (key : LruKey) : Option Bool :=
  if key.length ≠ item.keyLength then some true
  else do
    let other ← item.key.bind lru.keys
    some (decide (key.bytes ≠ other.bytes.take key.bytes.length))

/-- `none` is a key that is freed twice. -/
def gfcLruItemRemove (lru : GfcLru α) (prev : Option Nat) (item : Nat) (hashIndex : Nat) :
    Option (GfcLru α) :=
  let removed := lru.heap item
  let lru := lru.setLink prev hashIndex removed.next
  let lru := { lru with freeMemory := lru.freeMemory + removed.valueLength.toUInt64 }
  (lru.freeKey removed.key).map fun lru =>
    { lru.setItem item { LruItem.zero with next := lru.freeItems } with freeItems := some item }

/-- The variables of `gfc_lru_item_abandon`. -/
structure LruMin where
  item : Option Nat
  prev : Option Nat
  index : Nat
  accessCount : UInt64

/-- The walk through a chain. It is `none` after more steps than there are items: the chain then
leads in a circle, and the walk does not end. -/
def abandonChain (lru : GfcLru α) (i : Nat) : (steps : Nat) → (prev item : Option Nat) → LruMin →
    Option LruMin
  | 0, _, _, _ => none
  | _ + 1, _, none, min => some min
  | steps + 1, prev, some item, min =>
    abandonChain lru i steps (some item) (lru.heap item).next
      (if (lru.heap item).accessCount < min.accessCount ∨ min.accessCount = -1 then
        { item := some item, prev, index := i, accessCount := (lru.heap item).accessCount }
      else min)

/-- The cache without the least recently used item, and the key of that item. -/
def gfcLruItemAbandon (lru : GfcLru α) : Option (GfcLru α × List LruKey) := do
  let min ← (List.range lru.hashTableSize.toNat).foldlM
    (fun min i => abandonChain lru i (lru.itemCount + 1) none (lru.items i) min)
    { item := none, prev := none, index := (-1 : UInt32).toNat, accessCount := -1 }
  match min.item with
  | none => some (lru, [])
  | some item =>
    let abandoned ← gfcLruItemRemove lru min.prev item min.index
    some (abandoned, ((lru.heap item).key.bind lru.keys).toList)

def gfcLruItemPop (lru : GfcLru α) : Nat × GfcLru α :=
  match lru.freeItems with
  | some item => (item, { lru with freeItems := (lru.heap item).next })
  | none =>
    (lru.itemCount, { lru.setItem lru.itemCount .zero with itemCount := lru.itemCount + 1 })

/-- The loop that looks for a key: the item before it, or the last of the chain, and the item. It is
`none` where a freed key is read or the walk does not end. -/
def lruFind (lru : GfcLru α) (key : LruKey) : (steps : Nat) → (prev item : Option Nat) →
    Option (Option Nat × Option Nat)
  | 0, _, _ => none
  | _ + 1, prev, none => some (prev, none)
  | steps + 1, prev, some item => do
    let differ ← gfcLruCompare lru (lru.heap item) key
    if differ then lruFind lru key steps (some item) (lru.heap item).next
    else some (prev, some item)

def GfcLru.find (lru : GfcLru α) (key : LruKey) : Option (Option Nat × Option Nat) :=
  lruFind lru key (lru.itemCount + 1) none (lru.items (gfcLruHash lru key))

/-- What a call of `gfc_lru_set` comes to: the cache and the keys that it has evicted, an access to
a freed key or an endless walk, or a loop that is not through after the given rounds. -/
inductive LruOutcome (α : Type)
  | returned (lru : GfcLru α) (evicted : List LruKey)
  | undefined
  | running

/-- The loop that evicts. -/
def lruEvict (required : UInt64) : (rounds : Nat) → GfcLru α → List LruKey → LruOutcome α
  | 0, _, _ => .running
  | rounds + 1, lru, evicted =>
    if lru.freeMemory < required then
      match gfcLruItemAbandon lru with
      | none => .undefined
      | some (lru, keys) => lruEvict required rounds lru (evicted ++ keys)
    else .returned lru evicted

/-- The count of the access, for the item. -/
def GfcLru.access (lru : GfcLru α) (item : Nat) : GfcLru α :=
  { lru.setItem item { lru.heap item with accessCount := lru.accessCount + 1 } with
    accessCount := lru.accessCount + 1 }

/-- The end of `gfc_lru_set`. -/
def lruReclaim (rounds : Nat) (lru : GfcLru α) (required : UInt32) : LruOutcome α :=
  match if required > 0 ∧ required.toUInt64 > lru.freeMemory then
      lruEvict required.toUInt64 rounds lru []
    else .returned lru [] with
  | .returned lru evicted =>
    .returned { lru with freeMemory := lru.freeMemory - required.toUInt64 } evicted
  | .undefined => .undefined
  | .running => .running

/-- The cache with the key in a buffer of its own. -/
def GfcLru.ownKey (lru : GfcLru α) (key : LruKey) : GfcLru α :=
  { lru with
    keys := Function.update lru.keys lru.keyCount (some key)
    keyCount := lru.keyCount + 1 }

/-- The branch for a key that is not there: the item is put behind the last of the chain. -/
def lruInsert (lru : GfcLru α) (prev : Option Nat) (hashIndex : Nat) (buffer : Nat) (key : LruKey)
    (value : Option α) (valueLength : UInt32) : GfcLru α :=
  let (item, lru) := gfcLruItemPop lru
  let lru := lru.setItem item { lru.heap item with
    value := value, key := some buffer, valueLength := valueLength, keyLength := key.length }
  let lru := lru.setLink prev hashIndex (some item)
  lru.access item

def gfcLruSet (rounds : Nat) (lru : GfcLru α) (key : LruKey) (value : Option α)
    (valueLength : UInt32) : LruOutcome α :=
  let buffer := lru.keyCount
  let lru := lru.ownKey key
  match lru.find key with
  | none => .undefined
  | some (_, some item) =>
    match lru.freeKey (lru.heap item).key with
    | none => .undefined
    | some lru =>
      let required := valueLength - (lru.heap item).valueLength
      let lru := lru.setItem item { lru.heap item with value := value, valueLength := valueLength }
      lruReclaim rounds (lru.access item) required
  | some (prev, none) =>
    lruReclaim rounds (lruInsert lru prev (gfcLruHash lru key) buffer key value valueLength)
      valueLength

/-- The value, and `none` where a freed key is read or the walk does not end. -/
def gfcLruGet (lru : GfcLru α) (key : LruKey) : Option (Option α × GfcLru α) :=
  match lru.find key with
  | none => none
  | some (_, some item) => some ((lru.heap item).value, lru.access item)
  | some (_, none) => some (none, lru)

def gfcLruRemove (lru : GfcLru α) (key : LruKey) : Option (GfcLru α) :=
  match lru.find key with
  | none => none
  | some (prev, some item) => gfcLruItemRemove lru prev item (gfcLruHash lru key)
  | some (_, none) => some lru

/-! ### Runs -/

inductive LruCall (α : Type)
  | set (key : LruKey) (value : Option α) (valueLength : UInt32)
  | get (key : LruKey)
  | remove (key : LruKey)

/-- The cache, and `none` once a call has gone wrong, with the values last set and neither removed
nor evicted since. -/
structure LruRun (α : Type) where
  lru : Option (GfcLru α)
  last : LruKey → Option α

def lruStart (cacheSize : UInt64) (averageLength : UInt32) (time : UInt64) : LruRun α :=
  { lru := some (gfcLruNew cacheSize averageLength time), last := fun _ => none }

/-- The values without those of the keys. -/
def forget (last : LruKey → Option α) (keys : List LruKey) : LruKey → Option α :=
  fun key => if key ∈ keys then none else last key

/-- A call. There is no step for a call of `gfc_lru_set` that is still evicting after the rounds. -/
def lruStep (rounds : Nat) (run : LruRun α) (call : LruCall α) : Option (LruRun α) :=
  match run.lru, call with
  | none, _ => none
  | some lru, .set key value valueLength =>
    match gfcLruSet rounds lru key value valueLength with
    | .returned lru evicted =>
      some { lru := some lru, last := forget (Function.update run.last key value) evicted }
    | .undefined => some { run with lru := none }
    | .running => none
  | some lru, .get key => some { run with lru := (gfcLruGet lru key).map Prod.snd }
  | some lru, .remove key => some { lru := gfcLruRemove lru key, last := forget run.last [key] }

end Guardwatch
