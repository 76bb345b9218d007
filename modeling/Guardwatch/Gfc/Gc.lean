import Guardwatch.Lib.Bytes
import Mathlib.Logic.Function.Basic

/-! The allocator ledger of `gfc_gc.c`, once `gfc_gc_init` has made it: a table of the blocks that
were handed out, and a bitmap of the slots of that table that are taken, eight to a byte, the first
slot of a byte at its highest bit. -/

namespace Guardwatch

def gfcGcIncCount : Nat := 64

def gfcGcOk : Nat := 0
def gfcGcIsNull : Nat := 204
def gfcGcNotFound : Nat := 404

/-- An address is a number, `NULL` is 0. -/
structure GfcGcPtr where
  ptr : Nat
  len : UInt64
  size : UInt64
  total : UInt64

structure GfcGc where
  bits : Nat → UInt8
  ptrs : Nat → GfcGcPtr
  len : Nat
  total : UInt64

/-- What `realloc` leaves in the part of the two arrays that it adds. -/
structure Growth where
  bits : Nat → UInt8
  ptrs : Nat → GfcGcPtr

def clearGrowth : Growth := ⟨fun _ => 0, fun _ => ⟨0, 0, 0, 0⟩⟩

def gfcGcInit : GfcGc := ⟨fun _ => 0, fun _ => ⟨0, 0, 0, 0⟩, gfcGcIncCount, 0⟩

def freeBit (byte : UInt8) : Nat :=
  if byte ||| 0b01111111 = 0b01111111 then 0
  else if byte ||| 0b10111111 = 0b10111111 then 1
  else if byte ||| 0b11011111 = 0b11011111 then 2
  else if byte ||| 0b11101111 = 0b11101111 then 3
  else if byte ||| 0b11110111 = 0b11110111 then 4
  else if byte ||| 0b11111011 = 0b11111011 then 5
  else if byte ||| 0b11111101 = 0b11111101 then 6
  else if byte ||| 0b11111110 = 0b11111110 then 7
  else 0

/-- The loop of `gfc_gc_malloc` over the last bytes of the bitmap, from `idx` on: the values of
`idx` and `bitidx` after it. -/
def findFree (bits : Nat → UInt8) : Nat → Nat → Nat × Nat
  | 0, idx => (idx, 0)
  | remaining + 1, idx =>
    if bits idx &&& 0b11111111 = 0b11111111 then findFree bits remaining (idx + 1)
    else (idx, freeBit (bits idx))

def takenMask : Nat → UInt8
  | 0 => 0b10000000
  | 1 => 0b01000000
  | 2 => 0b00100000
  | 3 => 0b00010000
  | 4 => 0b00001000
  | 5 => 0b00000100
  | 6 => 0b00000010
  | 7 => 0b00000001
  | _ => 0

/-- `gfc_gc_malloc`, where `malloc` returns `ret`. -/
def gfcGcMalloc (grown : Growth) (ret : Nat) (size len : UInt64) (gc : GfcGc) : Nat × GfcGc :=
  let total := len * size
  if ret = 0 then (0, gc)
  else
    let (idx, bitidx) := findFree gc.bits (gc.len / 8) 0
    let ptridx := idx * 8 + bitidx
    if ptridx ≥ gc.len then
      let bits := fun i => if i < gc.len / 8 then gc.bits i else grown.bits i
      let ptrs := fun i => if i < gc.len then gc.ptrs i else grown.ptrs i
      -- The byte that is cleared is `bits[ptridx]`, past the end of the bitmap (`Full`,
      -- `InArrays`); the one that is set is `bits[ptridx / 8]`.
      let bits := Function.update bits ptridx 0
      let bits := Function.update bits (ptridx / 8) 0b10000000
      (ret, {
        bits := bits
        ptrs := Function.update ptrs ptridx ⟨ret, len, size, total⟩
        len := gc.len + gfcGcIncCount
        total := gc.total + total })
    else
      (ret, { gc with
        bits := Function.update gc.bits (ptridx / 8) (gc.bits (ptridx / 8) ||| takenMask bitidx)
        ptrs := Function.update gc.ptrs ptridx ⟨ret, len, size, total⟩
        total := gc.total + total })

/-- The first slot with the address, which `gfc_gc_realloc` and `gfc_gc_free` look for. -/
def findPtr (gc : GfcGc) (ptr : Nat) : Option Nat :=
  (List.range gc.len).find? fun i => (gc.ptrs i).ptr == ptr

/-- `gfc_gc_realloc`, where `realloc` returns `ret`; `none` where its assertion fails. -/
def gfcGcRealloc (ptr ret : Nat) (size len : UInt64) (gc : GfcGc) : Option (Nat × GfcGc) :=
  let total := len * size
  if ptr = 0 then some (0, gc)
  else
    match findPtr gc ptr with
    | some i =>
      some (ret, { gc with
        ptrs := Function.update gc.ptrs i ⟨ret, len, size, total⟩
        total := gc.total + (total - (gc.ptrs i).total) })
    | none => none

def gfcGcTotal (gc : GfcGc) : UInt64 := gc.total

/-- The masks of `gfc_gc_free`. That of case 6 clears two bits. -/
def freedMask : Nat → UInt8
  | 0 => 0b01111111
  | 1 => 0b10111111
  | 2 => 0b11011111
  | 3 => 0b11101111
  | 4 => 0b11110111
  | 5 => 0b11111011
  | 6 => 0b01111101
  | 7 => 0b11111110
  | _ => 0b11111111

def gfcGcFree (ptr : Nat) (gc : GfcGc) : Nat × GfcGc :=
  if ptr = 0 then (gfcGcIsNull, gc)
  else
    match findPtr gc ptr with
    | some i =>
      (gfcGcOk, { gc with
        bits := Function.update gc.bits (i / 8) (gc.bits (i / 8) &&& freedMask (i % 8))
        ptrs := Function.update gc.ptrs i ⟨0, 0, 0, 0⟩
        total := gc.total - (gc.ptrs i).total })
    | none => (gfcGcNotFound, gc)

/-! ### The bitmap -/

def byteBit (byte : UInt8) (j : Nat) : Bool := byte.toNat.testBit (7 - j)

theorem byteBit_or (byte mask : UInt8) (j : Nat) :
    byteBit (byte ||| mask) j = (byteBit byte j || byteBit mask j) := by
  simp [byteBit]

theorem byteBit_and (byte mask : UInt8) (j : Nat) :
    byteBit (byte &&& mask) j = (byteBit byte j && byteBit mask j) := by
  simp [byteBit]

theorem byteBit_takenMask : ∀ i < 8, ∀ j < 8, byteBit (takenMask i) j = decide (j = i) := by
  decide

/-- Case 6 also clears the bit of the first slot of its byte. -/
theorem byteBit_freedMask : ∀ i < 8, ∀ j < 8,
    byteBit (freedMask i) j = (!decide (j = i) && !(decide (i = 6) && decide (j = 0))) := by
  decide

theorem byteBit_freeBit : ∀ byte : UInt8, byte &&& 0b11111111 ≠ 0b11111111 →
    freeBit byte < 8 ∧ byteBit byte (freeBit byte) = false :=
  Bytes.forall_uint8 (by decide +kernel)

/-! ### The searches -/

theorem findFree_spec (bits : Nat → UInt8) (remaining idx : Nat) :
    (findFree bits remaining idx = (idx + remaining, 0)) ∨
    ∃ i < idx + remaining, idx ≤ i ∧ findFree bits remaining idx = (i, freeBit (bits i)) ∧
      bits i &&& 0b11111111 ≠ 0b11111111 := by
  induction remaining generalizing idx with
  | zero => exact .inl rfl
  | succ remaining ih =>
    rw [findFree]
    split
    · rcases ih (idx + 1) with none | ⟨i, below, above, found, free⟩
      · exact .inl (by rw [none]; congr 1; omega)
      · exact .inr ⟨i, by omega, by omega, found, free⟩
    · exact .inr ⟨idx, by omega, by omega, rfl, ‹_›⟩

theorem findPtr_eq {gc : GfcGc} {ptr i : Nat} (found : findPtr gc ptr = some i) :
    i < gc.len ∧ (gc.ptrs i).ptr = ptr := by
  obtain ⟨same, inside, -⟩ := List.find?_range_eq_some.mp found
  exact ⟨List.mem_range.mp inside, by simpa using same⟩

end Guardwatch
