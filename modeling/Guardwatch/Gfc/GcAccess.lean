import Guardwatch.Gfc.Gc
import Guardwatch.Lib.Recorder

/-! The accesses that the ledger makes to its bitmap and to its table. A call is within them, but
for an allocation that finds the bitmap full. -/

namespace Guardwatch

open Recording

inductive GcArray
  | bits
  | ptrs

/-- An access of one of the two arrays, at an index, where the ledger has `len` slots. -/
structure GcAccess where
  array : GcArray
  index : Nat
  len : Nat

def GcAccess.InBounds : GcAccess → Prop
  | ⟨.bits, index, len⟩ => index < len / 8
  | ⟨.ptrs, index, len⟩ => index < len

instance : ∀ access : GcAccess, Decidable access.InBounds
  | ⟨.bits, index, len⟩ => inferInstanceAs (Decidable (index < len / 8))
  | ⟨.ptrs, index, len⟩ => inferInstanceAs (Decidable (index < len))

abbrev GcProgram := Recorder GcAccess GfcGc

def readBits (i : Nat) : GcProgram UInt8 := reads (fun gc => ⟨.bits, i, gc.len⟩) fun gc => gc.bits i

def writeBits (i : Nat) (byte : UInt8) : GcProgram Unit :=
  writes (fun gc => ⟨.bits, i, gc.len⟩) fun gc =>
    { gc with bits := Function.update gc.bits i byte }

def readPtrs (i : Nat) : GcProgram GfcGcPtr :=
  reads (fun gc => ⟨.ptrs, i, gc.len⟩) fun gc => gc.ptrs i

def writePtrs (i : Nat) (block : GfcGcPtr) : GcProgram Unit :=
  writes (fun gc => ⟨.ptrs, i, gc.len⟩) fun gc =>
    { gc with ptrs := Function.update gc.ptrs i block }

def setTotal (f : UInt64 → UInt64) : GcProgram Unit :=
  change fun gc => { gc with total := f gc.total }

/-- The loop of `gfc_gc_malloc`. -/
def searchFree : Nat → Nat → GcProgram (Nat × Nat)
  | 0, idx => pure (idx, 0)
  | remaining + 1, idx => do
    let res ← readBits idx
    if res &&& 0b11111111 = 0b11111111 then searchFree remaining (idx + 1)
    else
      let byte ← readBits idx
      return (idx, freeBit byte)

/-- The two `realloc` of `gfc_gc_malloc`, after `len` is increased. -/
def growArrays (grown : Growth) : GcProgram Unit :=
  change fun gc => { gc with
    bits := fun i => if i < gc.len / 8 then gc.bits i else grown.bits i
    ptrs := fun i => if i < gc.len then gc.ptrs i else grown.ptrs i
    len := gc.len + gfcGcIncCount }

/-- `gfc_gc_malloc` with its accesses. -/
def mallocAccesses (grown : Growth) (ret : Nat) (size len : UInt64) : GcProgram Nat :=
  let total := len * size
  if ret = 0 then pure 0
  else do
    let gc ← look
    let (idx, bitidx) ← searchFree (gc.len / 8) 0
    let ptridx := idx * 8 + bitidx
    if ptridx ≥ gc.len then do
      growArrays grown
      writeBits ptridx 0
      writePtrs ptridx ⟨0, 0, 0, 0⟩
      writeBits (ptridx / 8) 0b10000000
      writePtrs ptridx ⟨ret, len, size, total⟩
    else do
      let byte ← readBits (ptridx / 8)
      writeBits (ptridx / 8) (byte ||| takenMask bitidx)
      writePtrs ptridx ⟨ret, len, size, total⟩
    setTotal fun before => before + total
    -- The time stamp and the address that the assertion compares.
    let _ ← readPtrs ptridx
    return ret

/-- The loop of `gfc_gc_realloc` and of `gfc_gc_free`. -/
def searchPtr (ptr : Nat) : Nat → Nat → GcProgram (Option Nat)
  | 0, _ => pure none
  | remaining + 1, i => do
    let block ← readPtrs i
    if block.ptr = ptr then return some i else searchPtr ptr remaining (i + 1)

/-- `gfc_gc_realloc` with its accesses; `none` where its assertion fails. -/
def reallocAccesses (ptr ret : Nat) (size len : UInt64) : GcProgram (Option Nat) :=
  let total := len * size
  if ptr = 0 then pure (some 0)
  else do
    let gc ← look
    match ← searchPtr ptr gc.len 0 with
    | some i =>
      let block ← readPtrs i
      setTotal fun before => before + (total - block.total)
      writePtrs i ⟨ret, len, size, total⟩
      return some ret
    | none => return none

/-- `gfc_gc_free` with its accesses. -/
def freeAccesses (ptr : Nat) : GcProgram Nat :=
  if ptr = 0 then pure gfcGcIsNull
  else do
    let gc ← look
    match ← searchPtr ptr gc.len 0 with
    | some i =>
      let block ← readPtrs i
      setTotal fun before => before - block.total
      let byte ← readBits (i / 8)
      writeBits (i / 8) (byte &&& freedMask (i % 8))
      writePtrs i ⟨0, 0, 0, 0⟩
      return gfcGcOk
    | none => return gfcGcNotFound

/-! ### The programs compute what the ledger's operations do -/

@[simp] theorem run_readBits (i : Nat) (gc : GfcGc) :
    (readBits i).run gc = ⟨gc.bits i, gc, [⟨.bits, i, gc.len⟩]⟩ := rfl

@[simp] theorem run_writeBits (i : Nat) (byte : UInt8) (gc : GfcGc) :
    (writeBits i byte).run gc =
      ⟨(), { gc with bits := Function.update gc.bits i byte }, [⟨.bits, i, gc.len⟩]⟩ := rfl

@[simp] theorem run_readPtrs (i : Nat) (gc : GfcGc) :
    (readPtrs i).run gc = ⟨gc.ptrs i, gc, [⟨.ptrs, i, gc.len⟩]⟩ := rfl

@[simp] theorem run_writePtrs (i : Nat) (block : GfcGcPtr) (gc : GfcGc) :
    (writePtrs i block).run gc =
      ⟨(), { gc with ptrs := Function.update gc.ptrs i block }, [⟨.ptrs, i, gc.len⟩]⟩ := rfl

@[simp] theorem run_setTotal (f : UInt64 → UInt64) (gc : GfcGc) :
    (setTotal f).run gc = ⟨(), { gc with total := f gc.total }, []⟩ := rfl

/-- What a program does that accesses both arrays within their bounds. -/
abbrev GcWithin {α : Type} (program : GcProgram α) (gc : GfcGc) (value : α) (gc' : GfcGc) : Prop :=
  Within GcAccess.InBounds program gc value gc'

theorem readBits_within {gc : GfcGc} {i : Nat} (inside : i < gc.len / 8) :
    GcWithin (readBits i) gc (gc.bits i) gc := by
  apply Within.reads
  exact inside

theorem writeBits_within {gc : GfcGc} {i : Nat} (inside : i < gc.len / 8) (byte : UInt8) :
    GcWithin (writeBits i byte) gc () { gc with bits := Function.update gc.bits i byte } := by
  apply Within.writes
  exact inside

theorem readPtrs_within {gc : GfcGc} {i : Nat} (inside : i < gc.len) :
    GcWithin (readPtrs i) gc (gc.ptrs i) gc := by
  apply Within.reads
  exact inside

theorem writePtrs_within {gc : GfcGc} {i : Nat} (inside : i < gc.len) (block : GfcGcPtr) :
    GcWithin (writePtrs i block) gc () { gc with ptrs := Function.update gc.ptrs i block } := by
  apply Within.writes
  exact inside

theorem searchFree_within (gc : GfcGc) (remaining idx : Nat)
    (below : idx + remaining ≤ gc.len / 8) :
    GcWithin (searchFree remaining idx) gc (findFree gc.bits remaining idx) gc := by
  induction remaining generalizing idx with
  | zero => exact Within.pure _ _
  | succ remaining ih =>
    have inside : idx < gc.len / 8 := by omega
    rw [findFree]
    apply (readBits_within inside).bind
    by_cases full : gc.bits idx &&& 0b11111111 = 0b11111111
    · rw [if_pos full, if_pos full]
      exact ih (idx + 1) (by omega)
    · rw [if_neg full, if_neg full]
      apply (readBits_within inside).bind
      exact Within.pure _ _

theorem searchPtr_within (gc : GfcGc) (ptr remaining i : Nat) (below : i + remaining ≤ gc.len) :
    GcWithin (searchPtr ptr remaining i) gc
      ((List.range' i remaining).find? fun i => (gc.ptrs i).ptr == ptr) gc := by
  induction remaining generalizing i with
  | zero => exact Within.pure _ _
  | succ remaining ih =>
    rw [List.range'_succ]
    apply (readPtrs_within (by omega : i < gc.len)).bind
    by_cases here : (gc.ptrs i).ptr = ptr
    · rw [if_pos here, List.find?_cons_of_pos (p := fun i => (gc.ptrs i).ptr == ptr)
        (beq_iff_eq.mpr here)]
      exact Within.pure _ _
    · rw [if_neg here, List.find?_cons_of_neg (p := fun i => (gc.ptrs i).ptr == ptr)
        (by rwa [beq_iff_eq])]
      exact ih (i + 1) (by omega)

theorem searchPtr_findPtr (ptr : Nat) (gc : GfcGc) :
    GcWithin (searchPtr ptr gc.len 0) gc (findPtr gc ptr) gc := by
  have within := searchPtr_within gc ptr gc.len 0 (by omega)
  rwa [← List.range_eq_range'] at within

/-- Every byte of the bitmap is full, so the next allocation enlarges the ledger. -/
def Full (gc : GfcGc) : Prop := ∀ i < gc.len / 8, gc.bits i = 0b11111111

instance (gc : GfcGc) : Decidable (Full gc) :=
  inferInstanceAs (Decidable (∀ i < gc.len / 8, gc.bits i = 0b11111111))

theorem byte_full : ∀ byte : UInt8, byte &&& 0b11111111 = 0b11111111 ↔ byte = 0b11111111 :=
  Bytes.forall_uint8 (by decide +kernel)

theorem findFree_past {bits : Nat → UInt8} {remaining idx : Nat}
    (past : findFree bits remaining idx = (idx + remaining, 0)) :
    ∀ i, idx ≤ i → i < idx + remaining → bits i &&& 0b11111111 = 0b11111111 := by
  induction remaining generalizing idx with
  | zero =>
    intro i above below
    omega
  | succ remaining ih =>
    rw [findFree] at past
    split at past
    · intro i above below
      by_cases here : i = idx
      · rwa [here]
      · rw [show idx + (remaining + 1) = idx + 1 + remaining by omega] at past below
        exact ih past i (by omega) below
    · have := congrArg Prod.fst past
      simp at this

theorem findFree_full {bits : Nat → UInt8} {remaining idx : Nat}
    (full : ∀ i < idx + remaining, bits i = 0b11111111) :
    findFree bits remaining idx = (idx + remaining, 0) := by
  induction remaining generalizing idx with
  | zero => rfl
  | succ remaining ih =>
    have here := (byte_full (bits idx)).mpr (full idx (by omega))
    rw [findFree, if_pos here, ih fun i below => full i (by omega)]
    congr 1
    omega

/-- Where a byte is not full the search stops at the slot of a clear bit. -/
theorem findFree_room {gc : GfcGc} (room : ¬Full gc) :
    ∃ idx < gc.len / 8, findFree gc.bits (gc.len / 8) 0 = (idx, freeBit (gc.bits idx)) ∧
      freeBit (gc.bits idx) < 8 ∧ byteBit (gc.bits idx) (freeBit (gc.bits idx)) = false := by
  simp only [Full, not_forall] at room
  obtain ⟨i, below, room⟩ := room
  rcases findFree_spec gc.bits (gc.len / 8) 0 with past | ⟨idx, below, -, found, free⟩
  · exact absurd ((byte_full _).mp (findFree_past past i (by omega) (by omega))) room
  · exact ⟨idx, by omega, found, byteBit_freeBit _ free⟩

theorem mallocAccesses_eq (grown : Growth) (ret : Nat) (size len : UInt64) (gc : GfcGc) :
    ((mallocAccesses grown ret size len).run gc).value = (gfcGcMalloc grown ret size len gc).1 ∧
      ((mallocAccesses grown ret size len).run gc).state =
        (gfcGcMalloc grown ret size len gc).2 := by
  have search := searchFree_within gc (gc.len / 8) 0 (by omega)
  by_cases null : ret = 0
  · simp [mallocAccesses, gfcGcMalloc, null]
  · by_cases full : (findFree gc.bits (gc.len / 8) 0).1 * 8 +
      (findFree gc.bits (gc.len / 8) 0).2 ≥ gc.len
    · simp [mallocAccesses, gfcGcMalloc, null, search.value_eq, search.state_eq, full, growArrays]
    · simp [mallocAccesses, gfcGcMalloc, null, search.value_eq, search.state_eq, full]

/-- An allocation that finds room does not enlarge the ledger. -/
theorem mallocAccesses_within (grown : Growth) (ret : Nat) (size len : UInt64) {gc : GfcGc}
    (room : ret ≠ 0 → ¬Full gc) :
    GcWithin (mallocAccesses grown ret size len) gc (gfcGcMalloc grown ret size len gc).1
        (gfcGcMalloc grown ret size len gc).2 ∧
      (gfcGcMalloc grown ret size len gc).2.len = gc.len := by
  obtain ⟨value_eq, state_eq⟩ := mallocAccesses_eq grown ret size len gc
  by_cases null : ret = 0
  · refine ⟨⟨value_eq, state_eq, ?_⟩, by simp [gfcGcMalloc, null]⟩
    simp [mallocAccesses, null]
  · obtain ⟨idx, below, found, bit, -⟩ := findFree_room (room null)
    have search := searchFree_within gc (gc.len / 8) 0 (by omega)
    have inside : ¬idx * 8 + freeBit (gc.bits idx) ≥ gc.len := by omega
    refine ⟨⟨value_eq, state_eq, ?_⟩, by simp [gfcGcMalloc, null, found, inside]⟩
    have byte : GcAccess.InBounds ⟨.bits, (idx * 8 + freeBit (gc.bits idx)) / 8, gc.len⟩ := by
      show _ < gc.len / 8
      omega
    have slot : GcAccess.InBounds ⟨.ptrs, idx * 8 + freeBit (gc.bits idx), gc.len⟩ := by
      show _ < gc.len
      omega
    simpa [mallocAccesses, null, search.value_eq, search.state_eq, found, inside, or_imp,
      forall_and, byte, slot] using search.records

/-- An allocation that finds no room clears a byte past the end of the bitmap. -/
theorem mallocAccesses_outside (grown : Growth) {ret : Nat} (nonnull : ret ≠ 0) (size len : UInt64)
    {gc : GfcGc} (aligned : 8 ∣ gc.len) (full : Full gc) :
    ⟨.bits, gc.len, gc.len + gfcGcIncCount⟩ ∈
      ((mallocAccesses grown ret size len).run gc).records := by
  have search := searchFree_within gc (gc.len / 8) 0 (by omega)
  have past : findFree gc.bits (gc.len / 8) 0 = (0 + gc.len / 8, 0) :=
    findFree_full fun i below => full i (by omega)
  have at_end : gc.len / 8 * 8 = gc.len := Nat.div_mul_cancel aligned
  simp [mallocAccesses, nonnull, search.value_eq, search.state_eq, past, growArrays, at_end]

theorem outside {len : Nat} (at_least : gfcGcIncCount ≤ len) :
    ¬GcAccess.InBounds ⟨.bits, len, len + gfcGcIncCount⟩ := by
  show ¬len < (len + 64) / 8
  have : 64 ≤ len := at_least
  omega

theorem reallocAccesses_within (ptr ret : Nat) (size len : UInt64) (gc : GfcGc) :
    GcWithin (reallocAccesses ptr ret size len) gc ((gfcGcRealloc ptr ret size len gc).map Prod.fst)
      (((gfcGcRealloc ptr ret size len gc).map Prod.snd).getD gc) := by
  unfold reallocAccesses gfcGcRealloc
  by_cases null : ptr = 0
  · rw [if_pos null, if_pos null]
    exact Within.pure _ _
  · rw [if_neg null, if_neg null]
    apply (Within.look gc).bind
    apply (searchPtr_findPtr ptr gc).bind
    cases found : findPtr gc ptr with
    | none => exact Within.pure _ _
    | some i =>
      have inside : i < gc.len := (findPtr_eq found).1
      apply (readPtrs_within inside).bind
      apply (Within.change _ _).bind
      refine (writePtrs_within ?_ _).bind (Within.pure _ _)
      exact inside

theorem freeAccesses_within (ptr : Nat) {gc : GfcGc} (aligned : 8 ∣ gc.len) :
    GcWithin (freeAccesses ptr) gc (gfcGcFree ptr gc).1 (gfcGcFree ptr gc).2 := by
  unfold freeAccesses gfcGcFree
  by_cases null : ptr = 0
  · rw [if_pos null, if_pos null]
    exact Within.pure _ _
  · rw [if_neg null, if_neg null]
    apply (Within.look gc).bind
    apply (searchPtr_findPtr ptr gc).bind
    cases found : findPtr gc ptr with
    | none => exact Within.pure _ _
    | some i =>
      have inside : i < gc.len := (findPtr_eq found).1
      have byte : i / 8 < gc.len / 8 := by omega
      apply (readPtrs_within inside).bind
      apply (Within.change _ _).bind
      refine (readBits_within ?_).bind ((writeBits_within ?_ _).bind
        ((writePtrs_within ?_ _).bind (Within.pure _ _)))
      · exact byte
      · exact byte
      · exact inside

/-! ### The calls -/

inductive GcCall
  | malloc (grown : Growth) (ret : Nat) (size len : UInt64)
  | realloc (ptr ret : Nat) (size len : UInt64)
  | free (ptr : Nat)

/-- A call, and the address that it returns where it returns one. -/
def GcCall.program : GcCall → GcProgram (Option Nat)
  | .malloc grown ret size len => do
    let block ← mallocAccesses grown ret size len
    return some block
  | .realloc ptr ret size len => reallocAccesses ptr ret size len
  | .free ptr => do
    let _ ← freeAccesses ptr
    return none

/-- Every access of the call is in its array. -/
def InArrays (call : GcCall) (gc : GfcGc) : Prop :=
  ∀ access ∈ (call.program.run gc).records, access.InBounds

instance (call : GcCall) (gc : GfcGc) : Decidable (InArrays call gc) :=
  inferInstanceAs (Decidable (∀ access ∈ (call.program.run gc).records, access.InBounds))

theorem inArrays_malloc_iff {grown : Growth} {ret : Nat} {size len : UInt64} {gc : GfcGc}
    (at_least : gfcGcIncCount ≤ gc.len) (aligned : 8 ∣ gc.len) :
    InArrays (.malloc grown ret size len) gc ↔ (ret ≠ 0 → ¬Full gc) := by
  have records : ((GcCall.malloc grown ret size len).program.run gc).records =
      ((mallocAccesses grown ret size len).run gc).records := by
    simp [GcCall.program]
  rw [InArrays, records]
  constructor
  · intro inside nonnull full
    exact outside at_least (inside _ (mallocAccesses_outside grown nonnull size len aligned full))
  · intro room
    exact (mallocAccesses_within grown ret size len room).1.records

theorem inArrays_realloc (ptr ret : Nat) (size len : UInt64) (gc : GfcGc) :
    InArrays (.realloc ptr ret size len) gc :=
  (reallocAccesses_within ptr ret size len gc).records

theorem inArrays_free (ptr : Nat) {gc : GfcGc} (aligned : 8 ∣ gc.len) :
    InArrays (.free ptr) gc := by
  have within := (freeAccesses_within ptr aligned).records
  simpa [InArrays, GcCall.program] using within

end Guardwatch
