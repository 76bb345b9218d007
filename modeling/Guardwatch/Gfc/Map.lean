import Guardwatch.Lib.CString
import Guardwatch.Lib.LinearProbe

/-! The hash map of `gfc_map.c`: string keys shorter than 1024 bytes, linear probing over at most
eight slots, and a table that doubles when it is half full or a chain is. -/

namespace Guardwatch

open LinearProbe

def initialSize : Nat := 256
def maxChainLength : Nat := 8

def gfcErrorMapOk : Nat := 0
def gfcErrorMapFull : Nat := 3001
def gfcErrorMapMissing : Nat := 3002
def gfcErrorMapOutOfMemory : Nat := 3003

abbrev MapKey := CBuffer 1024

/-- `NULL` data is `none`. -/
structure GfcMapElement (α : Type) where
  key : MapKey
  inUse : Int
  data : Option α

structure GfcMap (α : Type) where
  tableSize : Nat
  size : Int
  data : Nat → GfcMapElement α

/-- What `gfc_gc_malloc` returns for a table of so many elements: the elements that happen to be in
the block, or `none` for `NULL`. -/
abbrev TableAlloc (α : Type) := Nat → Option (Nat → GfcMapElement α)

/-- An allocator that always succeeds, with blocks of zero bytes. -/
def zeroFilled (α : Type) : TableAlloc α := fun _ => some fun _ => ⟨CBuffer.zero 1024, 0, none⟩

variable {α : Type}

/-- `gfc_map_new` clears the data of the elements it is given, and nothing else of them. -/
def gfcMapNew (alloc : TableAlloc α) : Option (GfcMap α) :=
  (alloc initialSize).map fun block =>
    { tableSize := initialSize, size := 0, data := fun i => { block i with data := none } }

def crc32Tab : Array UInt64 := #[
  0x00000000, 0x77073096, 0xee0e612c, 0x990951ba, 0x076dc419, 0x706af48f, 0xe963a535, 0x9e6495a3,
  0x0edb8832, 0x79dcb8a4, 0xe0d5e91e, 0x97d2d988, 0x09b64c2b, 0x7eb17cbd, 0xe7b82d07, 0x90bf1d91,
  0x1db71064, 0x6ab020f2, 0xf3b97148, 0x84be41de, 0x1adad47d, 0x6ddde4eb, 0xf4d4b551, 0x83d385c7,
  0x136c9856, 0x646ba8c0, 0xfd62f97a, 0x8a65c9ec, 0x14015c4f, 0x63066cd9, 0xfa0f3d63, 0x8d080df5,
  0x3b6e20c8, 0x4c69105e, 0xd56041e4, 0xa2677172, 0x3c03e4d1, 0x4b04d447, 0xd20d85fd, 0xa50ab56b,
  0x35b5a8fa, 0x42b2986c, 0xdbbbc9d6, 0xacbcf940, 0x32d86ce3, 0x45df5c75, 0xdcd60dcf, 0xabd13d59,
  0x26d930ac, 0x51de003a, 0xc8d75180, 0xbfd06116, 0x21b4f4b5, 0x56b3c423, 0xcfba9599, 0xb8bda50f,
  0x2802b89e, 0x5f058808, 0xc60cd9b2, 0xb10be924, 0x2f6f7c87, 0x58684c11, 0xc1611dab, 0xb6662d3d,
  0x76dc4190, 0x01db7106, 0x98d220bc, 0xefd5102a, 0x71b18589, 0x06b6b51f, 0x9fbfe4a5, 0xe8b8d433,
  0x7807c9a2, 0x0f00f934, 0x9609a88e, 0xe10e9818, 0x7f6a0dbb, 0x086d3d2d, 0x91646c97, 0xe6635c01,
  0x6b6b51f4, 0x1c6c6162, 0x856530d8, 0xf262004e, 0x6c0695ed, 0x1b01a57b, 0x8208f4c1, 0xf50fc457,
  0x65b0d9c6, 0x12b7e950, 0x8bbeb8ea, 0xfcb9887c, 0x62dd1ddf, 0x15da2d49, 0x8cd37cf3, 0xfbd44c65,
  0x4db26158, 0x3ab551ce, 0xa3bc0074, 0xd4bb30e2, 0x4adfa541, 0x3dd895d7, 0xa4d1c46d, 0xd3d6f4fb,
  0x4369e96a, 0x346ed9fc, 0xad678846, 0xda60b8d0, 0x44042d73, 0x33031de5, 0xaa0a4c5f, 0xdd0d7cc9,
  0x5005713c, 0x270241aa, 0xbe0b1010, 0xc90c2086, 0x5768b525, 0x206f85b3, 0xb966d409, 0xce61e49f,
  0x5edef90e, 0x29d9c998, 0xb0d09822, 0xc7d7a8b4, 0x59b33d17, 0x2eb40d81, 0xb7bd5c3b, 0xc0ba6cad,
  0xedb88320, 0x9abfb3b6, 0x03b6e20c, 0x74b1d29a, 0xead54739, 0x9dd277af, 0x04db2615, 0x73dc1683,
  0xe3630b12, 0x94643b84, 0x0d6d6a3e, 0x7a6a5aa8, 0xe40ecf0b, 0x9309ff9d, 0x0a00ae27, 0x7d079eb1,
  0xf00f9344, 0x8708a3d2, 0x1e01f268, 0x6906c2fe, 0xf762575d, 0x806567cb, 0x196c3671, 0x6e6b06e7,
  0xfed41b76, 0x89d32be0, 0x10da7a5a, 0x67dd4acc, 0xf9b9df6f, 0x8ebeeff9, 0x17b7be43, 0x60b08ed5,
  0xd6d6a3e8, 0xa1d1937e, 0x38d8c2c4, 0x4fdff252, 0xd1bb67f1, 0xa6bc5767, 0x3fb506dd, 0x48b2364b,
  0xd80d2bda, 0xaf0a1b4c, 0x36034af6, 0x41047a60, 0xdf60efc3, 0xa867df55, 0x316e8eef, 0x4669be79,
  0xcb61b38c, 0xbc66831a, 0x256fd2a0, 0x5268e236, 0xcc0c7795, 0xbb0b4703, 0x220216b9, 0x5505262f,
  0xc5ba3bbe, 0xb2bd0b28, 0x2bb45a92, 0x5cb36a04, 0xc2d7ffa7, 0xb5d0cf31, 0x2cd99e8b, 0x5bdeae1d,
  0x9b64c2b0, 0xec63f226, 0x756aa39c, 0x026d930a, 0x9c0906a9, 0xeb0e363f, 0x72076785, 0x05005713,
  0x95bf4a82, 0xe2b87a14, 0x7bb12bae, 0x0cb61b38, 0x92d28e9b, 0xe5d5be0d, 0x7cdcefb7, 0x0bdbdf21,
  0x86d3d2d4, 0xf1d4e242, 0x68ddb3f8, 0x1fda836e, 0x81be16cd, 0xf6b9265b, 0x6fb077e1, 0x18b74777,
  0x88085ae6, 0xff0f6a70, 0x66063bca, 0x11010b5c, 0x8f659eff, 0xf862ae69, 0x616bffd3, 0x166ccf45,
  0xa00ae278, 0xd70dd2ee, 0x4e048354, 0x3903b3c2, 0xa7672661, 0xd06016f7, 0x4969474d, 0x3e6e77db,
  0xaed16a4a, 0xd9d65adc, 0x40df0b66, 0x37d83bf0, 0xa9bcae53, 0xdebb9ec5, 0x47b2cf7f, 0x30b5ffe9,
  0xbdbdf21c, 0xcabac28a, 0x53b39330, 0x24b4a3a6, 0xbad03605, 0xcdd70693, 0x54de5729, 0x23d967bf,
  0xb3667a2e, 0xc4614ab8, 0x5d681b02, 0x2a6f2b94, 0xb40bbe37, 0xc30c8ea1, 0x5a05df1b, 0x2d02ef8d]

def crc32 (s : List UInt8) : UInt64 :=
  s.foldl (fun crc32val c =>
    crc32Tab.getD ((crc32val ^^^ c.toUInt64) &&& 0xff).toNat 0 ^^^ (crc32val >>> 8)) 0

/-- The mix and the multiplication of `gfc_map_hash_int`, where `unsigned long` has 64 bits. -/
def hashKey (keystring : MapKey) : UInt64 :=
  let key := crc32 keystring.text.bytes
  let key := key + (key <<< 12)
  let key := key ^^^ (key >>> 22)
  let key := key + (key <<< 4)
  let key := key ^^^ (key >>> 9)
  let key := key + (key <<< 10)
  let key := key ^^^ (key >>> 2)
  let key := key + (key <<< 7)
  let key := key ^^^ (key >>> 12)
  (key >>> 3) * 2654435761

def gfcMapHashInt (map : GfcMap α) (keystring : MapKey) : Nat :=
  (hashKey keystring).toNat % map.tableSize

/-- Two keys whose chains start at the same slot, 108, of the first table. -/
def keyG : MapKey := CBuffer.ofString 1024 "g"
def keyHJ : MapKey := CBuffer.ofString 1024 "hj"

/-- The slot to store the key in, or `gfcErrorMapFull`. -/
def gfcMapHash (map : GfcMap α) (key : MapKey) : Nat :=
  if map.size ≥ map.tableSize / 2 then gfcErrorMapFull
  else
    (scan map.tableSize
      (fun curr => (map.data curr).inUse == 0 ||
        ((map.data curr).inUse == 1 && (map.data curr).key == key))
      maxChainLength (gfcMapHashInt map key)).getD gfcErrorMapFull

/-- The loop of `gfc_map_rehash` over the old elements, with the slots it has yet to visit. -/
def rehashElements (put : GfcMap α → MapKey → Option α → Option (Nat × GfcMap α))
    (curr : Nat → GfcMapElement α) : List Nat → GfcMap α → Option (Nat × GfcMap α)
  | [], map => some (gfcErrorMapOk, map)
  | i :: rest, map =>
    if (curr i).inUse = 0 then rehashElements put curr rest map
    else do
      let (status, map) ← put map (curr i).key (curr i).data
      if status ≠ gfcErrorMapOk then some (status, map)
      else rehashElements put curr rest map

/-- `gfc_map_rehash`, with the `gfc_map_put` that it calls for each element. -/
def gfcMapRehash (alloc : TableAlloc α)
    (put : GfcMap α → MapKey → Option α → Option (Nat × GfcMap α)) (map : GfcMap α) :
    Option (Nat × GfcMap α) :=
  match alloc (2 * map.tableSize) with
  | none => some (gfcErrorMapOutOfMemory, map)
  | some temp =>
    rehashElements put map.data (List.range map.tableSize)
      { tableSize := 2 * map.tableSize, size := 0, data := temp }

def storeAt (map : GfcMap α) (index : Nat) (key : MapKey) (value : Option α) : GfcMap α :=
  { map with
    data := Function.update map.data index ⟨key, 1, value⟩
    size := map.size + 1 }

/-- `gfc_map_put`, which calls `gfc_map_rehash` until it finds a slot. The calls, those of the
rehashing included, may be nested `fuel` deep; `none` is a call that is nested deeper. -/
def gfcMapPut (alloc : TableAlloc α) (fuel : Nat) (map : GfcMap α) (key : MapKey)
    (value : Option α) : Option (Nat × GfcMap α) :=
  let index := gfcMapHash map key
  if index ≠ gfcErrorMapFull then some (gfcErrorMapOk, storeAt map index key value)
  else
    match fuel with
    | 0 => none
    | fuel + 1 => do
      let (status, map) ← gfcMapRehash alloc (gfcMapPut alloc fuel) map
      if status = gfcErrorMapOutOfMemory then some (gfcErrorMapOutOfMemory, map)
      else gfcMapPut alloc fuel map key value

/-- The slot among the probes for a key that is in use with that key, which `gfc_map_get` and
`gfc_map_remove` look for. -/
def findKey (map : GfcMap α) (key : MapKey) : Option Nat :=
  scan map.tableSize (fun curr => (map.data curr).inUse == 1 && (map.data curr).key == key)
    maxChainLength (gfcMapHashInt map key)

/-- The return code, and the data written through `arg`. -/
def gfcMapGet (map : GfcMap α) (key : MapKey) : Nat × Option α :=
  match findKey map key with
  | some curr => (gfcErrorMapOk, (map.data curr).data)
  | none => (gfcErrorMapMissing, none)

def gfcMapRemove (map : GfcMap α) (key : MapKey) : Nat × GfcMap α :=
  match findKey map key with
  | some curr =>
    (gfcErrorMapOk, { map with
      data := Function.update map.data curr ⟨CBuffer.zero 1024, 0, none⟩
      size := map.size - 1 })
  | none => (gfcErrorMapMissing, map)

end Guardwatch
