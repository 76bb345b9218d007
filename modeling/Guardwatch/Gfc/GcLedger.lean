import Guardwatch.Gfc.GcAccess
import Guardwatch.Lib.Runs
import Guardwatch.Lib.SlotTable
import Mathlib.Data.List.AList

/-! The ledger against the blocks that are live: every live block in one slot, the bitmap of the
taken slots, and the total of their sizes, over runs of allocations and releases. -/

namespace Guardwatch

open SlotTable Labelled

/-- The bit of a slot of the table. -/
def GfcGc.marked (gc : GfcGc) (i : Nat) : Bool :=
  decide (i < gc.len) && byteBit (gc.bits (i / 8)) (i % 8)

/-- The blocks in the table, each with its address and its bytes. -/
def GfcGc.slots (gc : GfcGc) (i : Nat) : Option (Nat × UInt64) :=
  if i < gc.len ∧ (gc.ptrs i).ptr ≠ 0 then some ((gc.ptrs i).ptr, (gc.ptrs i).total) else none

/-! ### One operation -/

theorem slots_update {gc : GfcGc} {i : Nat} (inside : i < gc.len) (block : GfcGcPtr)
    (bits : Nat → UInt8) (total : UInt64) :
    GfcGc.slots { gc with bits := bits, ptrs := Function.update gc.ptrs i block, total := total } =
      Function.update gc.slots i
        (if block.ptr ≠ 0 then some (block.ptr, block.total) else none) := by
  funext j
  by_cases same : j = i
  · subst same
    simp [GfcGc.slots, inside]
  · simp [GfcGc.slots, same]

theorem marked_update (gc : GfcGc) (i : Nat) (byte : UInt8) (ptrs : Nat → GfcGcPtr)
    (total : UInt64) (j : Nat) :
    GfcGc.marked { gc with
      bits := Function.update gc.bits (i / 8) byte, ptrs := ptrs, total := total } j =
      if j / 8 = i / 8 then decide (j < gc.len) && byteBit byte (j % 8) else gc.marked j := by
  by_cases same : j / 8 = i / 8
  · simp [GfcGc.marked, same]
  · simp [GfcGc.marked, same]

theorem marked_taken {gc : GfcGc} {i : Nat} (inside : i < gc.len) (ptrs : Nat → GfcGcPtr)
    (total : UInt64) :
    GfcGc.marked { gc with
      bits := Function.update gc.bits (i / 8) (gc.bits (i / 8) ||| takenMask (i % 8))
      ptrs := ptrs, total := total } = Function.update gc.marked i true := by
  funext j
  rw [marked_update, byteBit_or, byteBit_takenMask _ (by omega) _ (by omega)]
  by_cases same : j = i
  · subst same
    simp [inside]
  · rw [Function.update_of_ne same]
    by_cases byte : j / 8 = i / 8
    · have offset : j % 8 ≠ i % 8 := by omega
      simp [GfcGc.marked, byte, offset]
    · rw [if_neg byte]

/-- Freeing slot 6 of a byte also clears the bit of slot 0 of the byte. -/
theorem marked_freed (gc : GfcGc) (i : Nat) (ptrs : Nat → GfcGcPtr) (total : UInt64) (j : Nat) :
    GfcGc.marked { gc with
      bits := Function.update gc.bits (i / 8) (gc.bits (i / 8) &&& freedMask (i % 8))
      ptrs := ptrs, total := total } j =
      (gc.marked j && !decide (j = i) && !(decide (i % 8 = 6) && decide (j + 6 = i))) := by
  rw [marked_update, byteBit_and, byteBit_freedMask _ (by omega) _ (by omega)]
  by_cases byte : j / 8 = i / 8
  · have same : j % 8 = i % 8 ↔ j = i := by omega
    have first : i % 8 = 6 ∧ j % 8 = 0 ↔ i % 8 = 6 ∧ j + 6 = i := by omega
    simp only [byte, ↓reduceIte, GfcGc.marked, ← Bool.decide_and, same, first, Bool.and_assoc]
  · have other : j ≠ i := by omega
    have later : ¬(i % 8 = 6 ∧ j + 6 = i) := by omega
    simp only [byte, ↓reduceIte, other, ← Bool.decide_and, later, decide_false, Bool.not_false,
      Bool.and_true]

/-- What an allocation does: one slot that was free gets the block, and its bit. -/
structure Records (gc gc' : GfcGc) (i address : Nat) (total : UInt64) : Prop where
  len_eq : gc'.len = gc.len
  inside : i < gc.len
  free : gc.slots i = none
  slots_eq : gc'.slots = Function.update gc.slots i (some (address, total))
  marked_eq : gc'.marked = Function.update gc.marked i true
  total_eq : gc'.total = gc.total + total

/-- Where a byte has a clear bit the block takes its slot. -/
theorem gfcGcMalloc_records {gc : GfcGc} (agree : ∀ i, gc.marked i = (gc.slots i).isSome)
    {ret : Nat} (nonnull : ret ≠ 0) (grown : Growth) (size len : UInt64) (room : ¬Full gc) :
    ∃ gc' i, gfcGcMalloc grown ret size len gc = (ret, gc') ∧
      Records gc gc' i ret (len * size) := by
  obtain ⟨idx, below, found, bit, clear⟩ := findFree_room room
  generalize at_bit : freeBit (gc.bits idx) = j at found bit clear
  have inside : idx * 8 + j < gc.len := by omega
  have byte : (idx * 8 + j) / 8 = idx := by omega
  have offset : (idx * 8 + j) % 8 = j := by omega
  refine ⟨{ gc with
    bits := Function.update gc.bits ((idx * 8 + j) / 8)
      (gc.bits ((idx * 8 + j) / 8) ||| takenMask ((idx * 8 + j) % 8))
    ptrs := Function.update gc.ptrs (idx * 8 + j) ⟨ret, len, size, len * size⟩
    total := gc.total + len * size }, idx * 8 + j, ?_, rfl, inside, ?_, ?_,
    marked_taken inside _ _, rfl⟩
  · simp only [gfcGcMalloc, nonnull, ↓reduceIte, found, ge_iff_le, Nat.not_le_of_gt inside, offset]
  · have := agree (idx * 8 + j)
    rw [GfcGc.marked, byte, offset, clear, Bool.and_false] at this
    exact Option.isNone_iff_eq_none.mp (by simpa using this.symm)
  · rw [slots_update inside, if_pos nonnull]

theorem slots_of_ptr {gc : GfcGc} {ptr i : Nat} (nonnull : ptr ≠ 0) (inside : i < gc.len)
    (same : (gc.ptrs i).ptr = ptr) : gc.slots i = some (ptr, (gc.ptrs i).total) := by
  simp [GfcGc.slots, inside, same, nonnull]

theorem ptr_of_slots {gc : GfcGc} {ptr i : Nat} {total : UInt64}
    (at_i : gc.slots i = some (ptr, total)) : (gc.ptrs i).ptr = ptr ∧ (gc.ptrs i).total = total := by
  unfold GfcGc.slots at at_i
  split at at_i
  · simpa using at_i
  · cases at_i

/-- The search finds the slot of a block that the table has. -/
theorem findPtr_stored {gc : GfcGc} {d : Nat → Option UInt64} (stores : Stores gc.len gc.slots d)
    {ptr : Nat} {total : UInt64} (nonnull : ptr ≠ 0) (live : d ptr = some total) :
    ∃ i < gc.len, findPtr gc ptr = some i ∧ gc.slots i = some (ptr, total) ∧
      (gc.ptrs i).total = total := by
  obtain ⟨i, inside, at_i⟩ := (stores.agrees ptr total).mp live
  cases found : findPtr gc ptr with
  | none =>
    have missed := List.find?_eq_none.mp found i (List.mem_range.mpr inside)
    exact absurd (ptr_of_slots at_i).1 (by simpa using missed)
  | some j =>
    obtain ⟨inside', same⟩ := findPtr_eq found
    have at_j := slots_of_ptr nonnull inside' same
    obtain rfl := stores.unique i inside j inside' ptr _ _ at_i at_j
    exact ⟨i, inside, rfl, at_i, (ptr_of_slots at_i).2⟩

/-! ### Runs of allocations -/

inductive GcOp
  | malloc (ret : Nat) (size len : UInt64)
  | realloc (ptr ret : Nat) (size len : UInt64)
  | free (ptr : Nat)

/-- The ledger, and the blocks that are live with their sizes in bytes. -/
structure GcRun where
  gc : GfcGc
  live : AList fun _ : Nat => UInt64

def GcOp.call : GcOp → GcCall
  | .malloc ret size len => .malloc clearGrowth ret size len
  | .realloc ptr ret size len => .realloc ptr ret size len
  | .free ptr => .free ptr

/-- A call on live blocks, where `malloc` and `realloc` return the address of no other one. -/
def gcCalled (s : GcRun) : GcOp → Option GcRun
  | .malloc ret size len =>
    if ret ≠ 0 ∧ ret ∉ s.live then
      some ⟨(gfcGcMalloc clearGrowth ret size len s.gc).2, s.live.insert ret (len * size)⟩
    else none
  | .realloc ptr ret size len =>
    if ptr ∈ s.live ∧ ret ≠ 0 ∧ ret ∉ s.live.erase ptr then
      (gfcGcRealloc ptr ret size len s.gc).map fun result =>
        ⟨result.2, (s.live.erase ptr).insert ret (len * size)⟩
    else none
  | .free ptr =>
    if ptr ∈ s.live then some ⟨(gfcGcFree ptr s.gc).2, s.live.erase ptr⟩ else none

/-- One call. The state after a call that accesses the arrays outside their bounds is `none`: it has
no behaviour that could be relied on. -/
def gcStep (state : Option GcRun) (op : GcOp) : Option (Option GcRun) := do
  let s ← state
  let t ← gcCalled s op
  if InArrays op.call s.gc then some (some t) else some none

/-- The bytes of the live blocks. -/
def held (live : AList fun _ : Nat => UInt64) : Nat :=
  (live.entries.map fun block => block.2.toNat).sum

structure LedgerKept (s : GcRun) : Prop where
  recorded : ∀ ptr total, s.live.lookup ptr = some total →
    ∃ i < s.gc.len, s.gc.slots i = some (ptr, total) ∧
      ∀ j < s.gc.len, (s.gc.ptrs j).ptr = ptr → j = i
  bits : ∀ i < s.gc.len,
    (s.gc.ptrs i).ptr ≠ 0 ↔ byteBit (s.gc.bits (i / 8)) (i % 8) = true
  total : (gfcGcTotal s.gc).toNat = held s.live % 2 ^ 64
  freed : ∀ ptr ∈ s.live, (gfcGcFree ptr s.gc).1 = gfcGcOk

/-- Every access so far was within the arrays, and the ledger is as it should be. -/
def LedgerStands (state : Option GcRun) : Prop := ∃ s, state = some s ∧ LedgerKept s

/-- A block that is freed from slot 6 of a byte has no block in slot 0 of the byte. -/
def FreesApart (s : GcRun) (ptr : Nat) : Prop :=
  ∀ i < s.gc.len, (s.gc.ptrs i).ptr = ptr → i % 8 = 6 → (s.gc.ptrs (i - 6)).ptr = 0

instance (s : GcRun) (ptr : Nat) : Decidable (FreesApart s ptr) :=
  inferInstanceAs (Decidable (∀ i < s.gc.len, (s.gc.ptrs i).ptr = ptr →
    i % 8 = 6 → (s.gc.ptrs (i - 6)).ptr = 0))

/-- An allocation finds a byte of the bitmap that is not full, and a release is of a block as
above. -/
def Harmless : Option GcRun → GcOp → Prop
  | some s, .malloc .. => ¬Full s.gc
  | some s, .free ptr => FreesApart s ptr
  | _, _ => True

instance : ∀ state op, Decidable (Harmless state op)
  | some s, .malloc .. => inferInstanceAs (Decidable (¬Full s.gc))
  | some s, .free ptr => inferInstanceAs (Decidable (FreesApart s ptr))
  | some _, .realloc .. | none, _ => .isTrue trivial

structure LedgerInvariant (s : GcRun) : Prop where
  len : s.gc.len = gfcGcIncCount
  nonnull : 0 ∉ s.live
  stores : Stores s.gc.len s.gc.slots s.live.lookup
  agree : ∀ i, s.gc.marked i = (s.gc.slots i).isSome
  total : s.gc.total.toNat = held s.live % 2 ^ 64

theorem LedgerInvariant.kept {s : GcRun} (ledger : LedgerInvariant s) : LedgerKept s := by
  refine ⟨fun ptr total live => ?_, fun i inside => ?_, ledger.total, fun ptr live => ?_⟩
  · have nonnull : ptr ≠ 0 := by
      rintro rfl
      exact ledger.nonnull (AList.lookup_isSome.mp (by rw [live]; rfl))
    obtain ⟨i, inside, at_i⟩ := (ledger.stores.agrees ptr total).mp live
    refine ⟨i, inside, at_i, fun j inside' same => ?_⟩
    exact ledger.stores.unique j inside' i inside ptr _ _ (slots_of_ptr nonnull inside' same) at_i
  · have := ledger.agree i
    simp only [GfcGc.marked, inside, decide_true, Bool.true_and, GfcGc.slots, true_and] at this
    rw [this]
    split <;> simp_all
  · have nonnull : ptr ≠ 0 := by
      rintro rfl
      exact ledger.nonnull live
    obtain ⟨total, live⟩ := Option.isSome_iff_exists.mp (AList.lookup_isSome.mpr live)
    obtain ⟨i, -, found, -⟩ := findPtr_stored ledger.stores nonnull live
    simp [gfcGcFree, nonnull, found]

theorem held_insert {live : AList fun _ : Nat => UInt64} {ptr : Nat} (fresh : ptr ∉ live)
    (total : UInt64) : held (live.insert ptr total) = held live + total.toNat := by
  rw [held, AList.entries_insert_of_notMem fresh, List.map_cons, List.sum_cons, held, Nat.add_comm]

theorem held_erase {live : AList fun _ : Nat => UInt64} {ptr : Nat} {total : UInt64}
    (at_ptr : live.lookup ptr = some total) :
    held live = held (live.erase ptr) + total.toNat := by
  have member := AList.lookup_isSome.mp (by rw [at_ptr]; rfl : (live.lookup ptr).isSome)
  obtain ⟨total', before, after, fresh, all, rest⟩ := List.exists_of_kerase (AList.mem_keys.mp member)
  have same : live.entries.dlookup ptr = some total := at_ptr
  rw [all, List.dlookup_append, List.dlookup_eq_none.mpr fresh] at same
  obtain rfl : total' = total := by simpa using same
  have erased : (live.erase ptr).entries = before ++ after := rest
  simp only [held, all, erased, List.map_append, List.map_cons, List.sum_append, List.sum_cons]
  omega

theorem lookup_insert_eq (live : AList fun _ : Nat => UInt64) (ptr : Nat) (total : UInt64) :
    (live.insert ptr total).lookup = Function.update live.lookup ptr (some total) := by
  funext k
  by_cases same : k = ptr
  · subst same
    rw [AList.lookup_insert, Function.update_self]
  · rw [AList.lookup_insert_ne same, Function.update_of_ne same]

theorem lookup_erase_eq (live : AList fun _ : Nat => UInt64) (ptr : Nat) :
    (live.erase ptr).lookup = Function.update live.lookup ptr none := by
  funext k
  by_cases same : k = ptr
  · subst same
    rw [AList.lookup_erase, Function.update_self]
  · rw [AList.lookup_erase_ne same, Function.update_of_ne same]

theorem ledgerInvariant_malloc {s : GcRun} (ledger : LedgerInvariant s) {ret : Nat}
    (nonnull : ret ≠ 0) (fresh : ret ∉ s.live) (grown : Growth) (size len : UInt64)
    (room : ¬Full s.gc) :
    LedgerInvariant ⟨(gfcGcMalloc grown ret size len s.gc).2, s.live.insert ret (len * size)⟩ := by
  obtain ⟨gc', i, done, r⟩ := gfcGcMalloc_records ledger.agree nonnull grown size len room
  rw [done]
  refine ⟨r.len_eq.trans ledger.len, ?_, ?_, fun j => ?_, ?_⟩
  · rw [AList.mem_insert]
    rintro (zero | live)
    · exact nonnull zero.symm
    · exact ledger.nonnull live
  · rw [r.slots_eq, r.len_eq, lookup_insert_eq]
    refine ledger.stores.store _ r.inside (fun k v at_i => ?_) fun j inside _ v => ?_
    · rw [r.free] at at_i
      cases at_i
    · exact ledger.stores.absent.mp (AList.lookup_eq_none.mpr fresh) j inside v
  · rw [r.marked_eq, r.slots_eq]
    by_cases same : j = i
    · simp [same]
    · rw [Function.update_of_ne same, Function.update_of_ne same, ledger.agree]
  · rw [r.total_eq, held_insert fresh, UInt64.toNat_add, ledger.total]
    omega

theorem ledgerInvariant_realloc {s : GcRun} (ledger : LedgerInvariant s) {ptr ret : Nat}
    (live : ptr ∈ s.live) (nonnull : ret ≠ 0) (fresh : ret ∉ s.live.erase ptr) {size len : UInt64}
    {result : Nat × GfcGc} (done : gfcGcRealloc ptr ret size len s.gc = some result) :
    LedgerInvariant ⟨result.2, (s.live.erase ptr).insert ret (len * size)⟩ := by
  have ptr_nonnull : ptr ≠ 0 := by
    rintro rfl
    exact ledger.nonnull live
  obtain ⟨total, at_ptr⟩ := Option.isSome_iff_exists.mp (AList.lookup_isSome.mpr live)
  obtain ⟨i, inside, found, at_i, total_i⟩ := findPtr_stored ledger.stores ptr_nonnull at_ptr
  simp only [gfcGcRealloc, ptr_nonnull, ↓reduceIte, found, total_i, Option.some.injEq] at done
  subst done
  have moved := slots_update inside ⟨ret, len, size, len * size⟩ s.gc.bits
    (s.gc.total + (len * size - total))
  rw [if_pos nonnull] at moved
  refine ⟨ledger.len, ?_, ?_, fun j => ?_, ?_⟩
  · rw [AList.mem_insert, AList.mem_erase]
    rintro (zero | ⟨-, live⟩)
    · exact nonnull zero.symm
    · exact ledger.nonnull live
  · -- The old block is erased from its slot, and the new one stored there.
    have erased := ledger.stores.erase inside at_i
    rw [← lookup_erase_eq] at erased
    have stored := erased.store (len * size) inside
      (fun k v at_i => by rw [Function.update_self] at at_i; cases at_i)
      fun j inside' _ v => erased.absent.mp (AList.lookup_eq_none.mpr fresh) j inside' v
    rw [Function.update_idem, ← lookup_insert_eq] at stored
    rw [moved]
    exact stored
  · rw [moved]
    have := ledger.agree j
    by_cases same : j = i
    · subst same
      rw [at_i] at this
      rw [Function.update_self]
      exact this
    · rw [Function.update_of_ne same]
      exact this
  · have before := held_erase at_ptr
    have total_eq := ledger.total
    show (s.gc.total + (len * size - total)).toNat =
      held ((s.live.erase ptr).insert ret (len * size)) % 2 ^ 64
    rw [held_insert fresh, UInt64.toNat_add, UInt64.toNat_sub, total_eq, before]
    have := total.toNat_lt
    omega

theorem ledgerInvariant_free {s : GcRun} (ledger : LedgerInvariant s) {ptr : Nat}
    (live : ptr ∈ s.live) (apart : FreesApart s ptr) :
    LedgerInvariant ⟨(gfcGcFree ptr s.gc).2, s.live.erase ptr⟩ := by
  have nonnull : ptr ≠ 0 := by
    rintro rfl
    exact ledger.nonnull live
  obtain ⟨total, at_ptr⟩ := Option.isSome_iff_exists.mp (AList.lookup_isSome.mpr live)
  obtain ⟨i, inside, found, at_i, total_i⟩ := findPtr_stored ledger.stores nonnull at_ptr
  simp only [gfcGcFree, nonnull, ↓reduceIte, found, total_i]
  have emptied := slots_update inside ⟨0, 0, 0, 0⟩
    (Function.update s.gc.bits (i / 8) (s.gc.bits (i / 8) &&& freedMask (i % 8)))
    (s.gc.total - total)
  rw [if_neg (by simp)] at emptied
  refine ⟨ledger.len, ?_, ?_, fun j => ?_, ?_⟩
  · rw [AList.mem_erase]
    exact fun live => ledger.nonnull live.2
  · rw [emptied, lookup_erase_eq]
    exact ledger.stores.erase inside at_i
  · rw [marked_freed, emptied, ledger.agree]
    by_cases same : j = i
    · simp [same]
    · rw [Function.update_of_ne same]
      by_cases first : i % 8 = 6 ∧ j + 6 = i
      · have clear : s.gc.slots j = none := by
          have := apart i inside (ptr_of_slots at_i).1 first.1
          rw [show i - 6 = j by omega] at this
          simp [GfcGc.slots, this]
        simp [clear]
      · simp [same, ← Bool.decide_and, first]
  · have before := held_erase at_ptr
    have total_eq := ledger.total
    show (s.gc.total - total).toNat = held (s.live.erase ptr) % 2 ^ 64
    rw [UInt64.toNat_sub, total_eq, before]
    have := total.toNat_lt
    omega

def gcStart : GcRun := ⟨gfcGcInit, ∅⟩

theorem ledgerInvariant_start : LedgerInvariant gcStart := by
  refine ⟨rfl, AList.notMem_empty 0, ?_, fun i => ?_, rfl⟩
  · have empty : gcStart.gc.slots = fun _ => none := by
      funext i
      simp [gcStart, gfcGcInit, GfcGc.slots]
    have nothing : gcStart.live.lookup = fun _ => none := funext AList.lookup_empty
    rw [empty, nothing]
    exact stores_clear fun _ _ => rfl
  · simp [gcStart, gfcGcInit, GfcGc.slots, GfcGc.marked, byteBit]

theorem ledgerInvariant_called {s t : GcRun} {op : GcOp} (ledger : LedgerInvariant s)
    (harmless : Harmless (some s) op) (called : gcCalled s op = some t) : LedgerInvariant t := by
  cases op with
  | malloc ret size len =>
    obtain ⟨⟨nonnull, fresh⟩, called⟩ := Option.ite_none_right_eq_some.mp called
    cases called
    exact ledgerInvariant_malloc ledger nonnull fresh clearGrowth size len harmless
  | realloc ptr ret size len =>
    obtain ⟨⟨live, nonnull, fresh⟩, called⟩ := Option.ite_none_right_eq_some.mp called
    obtain ⟨result, done, rfl⟩ := Option.map_eq_some_iff.mp called
    exact ledgerInvariant_realloc ledger live nonnull fresh done
  | free ptr =>
    obtain ⟨live, called⟩ := Option.ite_none_right_eq_some.mp called
    cases called
    exact ledgerInvariant_free ledger live harmless

/-- Only an allocation that finds the bitmap full leaves the arrays. -/
theorem inArrays_called {s t : GcRun} {op : GcOp} (ledger : LedgerInvariant s)
    (called : gcCalled s op = some t) :
    InArrays op.call s.gc ↔ ∀ ret size len, op = .malloc ret size len → ¬Full s.gc := by
  have at_least : gfcGcIncCount ≤ s.gc.len := Nat.le_of_eq ledger.len.symm
  have aligned : 8 ∣ s.gc.len := by
    rw [ledger.len]
    decide
  cases op with
  | malloc ret size len =>
    obtain ⟨⟨nonnull, -⟩, -⟩ := Option.ite_none_right_eq_some.mp called
    rw [GcOp.call, inArrays_malloc_iff at_least aligned]
    exact ⟨fun room _ _ _ _ => room nonnull, fun room _ => room _ _ _ rfl⟩
  | realloc ptr ret size len => exact iff_of_true (inArrays_realloc ptr ret size len _) nofun
  | free ptr => exact iff_of_true (inArrays_free ptr aligned) nofun

/-- A block of slot 6 that is freed next to a block in slot 0 leaves that block without its bit. -/
theorem freesApart_of_kept {s : GcRun} {ptr : Nat} (ledger : LedgerInvariant s)
    (live : ptr ∈ s.live) (kept : LedgerKept ⟨(gfcGcFree ptr s.gc).2, s.live.erase ptr⟩) :
    FreesApart s ptr := by
  have nonnull : ptr ≠ 0 := by
    rintro rfl
    exact ledger.nonnull live
  intro i inside at_i sixth
  by_contra first
  obtain ⟨total, at_ptr⟩ := Option.isSome_iff_exists.mp (AList.lookup_isSome.mpr live)
  obtain ⟨j, inside', found, at_j, -⟩ := findPtr_stored ledger.stores nonnull at_ptr
  obtain rfl := ledger.stores.unique i inside j inside' ptr _ _
    (slots_of_ptr nonnull inside at_i) at_j
  have bits := kept.bits (i - 6)
  simp only [gfcGcFree, nonnull, ↓reduceIte, found] at bits
  have before : i - 6 < s.gc.len := by omega
  have other : i - 6 ≠ i := by omega
  have unmarked := marked_freed s.gc i (Function.update s.gc.ptrs i ⟨0, 0, 0, 0⟩)
    (s.gc.total - (s.gc.ptrs i).total) (i - 6)
  rw [show i - 6 + 6 = i by omega] at unmarked
  simp only [GfcGc.marked, before, sixth, decide_true, Bool.and_true, Bool.not_true,
    Bool.and_false, Bool.true_and] at unmarked
  rw [sixth, unmarked, Function.update_of_ne other] at bits
  exact absurd ((bits before).mp first) (by decide)

theorem harmless_of_kept {s t : GcRun} {op : GcOp} (ledger : LedgerInvariant s)
    (called : gcCalled s op = some t) (inside : InArrays op.call s.gc) (kept : LedgerKept t) :
    Harmless (some s) op := by
  cases op with
  | malloc ret size len => exact (inArrays_called ledger called).mp inside _ _ _ rfl
  | realloc ptr ret size len => trivial
  | free ptr =>
    obtain ⟨live, called⟩ := Option.ite_none_right_eq_some.mp called
    cases called
    exact freesApart_of_kept ledger live kept

def GcSteps (state : Option GcRun) (op : GcOp) (next : Option GcRun) : Prop :=
  gcStep state op = some next

theorem gcStep_cases {s : GcRun} {op : GcOp} {next : Option GcRun}
    (step : GcSteps (some s) op next) : ∃ t, gcCalled s op = some t ∧
      (InArrays op.call s.gc ∧ next = some t ∨ ¬InArrays op.call s.gc ∧ next = none) := by
  obtain ⟨t, called, after⟩ := Option.bind_eq_some_iff.mp step
  refine ⟨t, called, ?_⟩
  by_cases inside : InArrays op.call s.gc
  · rw [if_pos inside] at after
    exact .inl ⟨inside, (Option.some.inj after).symm⟩
  · rw [if_neg inside] at after
    exact .inr ⟨inside, (Option.some.inj after).symm⟩

/-- What every harmless call keeps. -/
def LedgerSound (state : Option GcRun) : Prop := ∃ s, state = some s ∧ LedgerInvariant s

theorem ledgerSound_step {state next : Option GcRun} {op : GcOp} (sound : LedgerSound state)
    (harmless : Harmless state op) (step : GcSteps state op next) : LedgerSound next := by
  obtain ⟨s, rfl, ledger⟩ := sound
  obtain ⟨t, called, ⟨-, rfl⟩ | ⟨outside, -⟩⟩ := gcStep_cases step
  · exact ⟨t, rfl, ledgerInvariant_called ledger harmless called⟩
  · refine absurd ((inArrays_called ledger called).mpr fun ret size len malloc => ?_) outside
    subst malloc
    exact harmless

theorem harmless_of_stands {state next : Option GcRun} {op : GcOp} (sound : LedgerSound state)
    (step : GcSteps state op next) (stands : LedgerStands next) : Harmless state op := by
  obtain ⟨s, rfl, ledger⟩ := sound
  obtain ⟨t', rfl, kept⟩ := stands
  obtain ⟨t, called, ⟨inside, same⟩ | ⟨-, stopped⟩⟩ := gcStep_cases step
  · cases same
    exact harmless_of_kept ledger called inside kept
  · cases stopped

/-- The ledger is kept throughout a run of allocations and releases if and only if no allocation
finds the bitmap full, and no block is freed from slot 6 of a byte while slot 0 of that byte has a
block. -/
theorem ledgerKept_iff {trace : List (GcOp × Option GcRun)}
    (run : Run GcSteps (some gcStart) trace) :
    EveryState LedgerStands (some gcStart) trace ↔ EveryStep Harmless (some gcStart) trace :=
  run.everyState_iff ⟨gcStart, rfl, ledgerInvariant_start⟩
    (fun _ ⟨s, same, ledger⟩ => ⟨s, same, ledger.kept⟩)
    (fun _ _ _ sound harmless step => ledgerSound_step sound harmless step)
    fun _ _ _ sound step stands => harmless_of_stands sound step stands

def allocated : List GcOp :=
  [.malloc 1 1 10, .malloc 2 8 4, .realloc 1 3 1 20, .free 2, .malloc 2 1 1, .free 3]

theorem ledgerKept_iff_allocated :
    EveryState LedgerStands (some gcStart) (traced gcStep (some gcStart) allocated) := by
  have harmless : EveryStep Harmless (some gcStart) (traced gcStep (some gcStart) allocated) := by
    decide +kernel
  -- The trace is kept as a variable: the elaborator would otherwise evaluate it.
  generalize eq : traced gcStep (some gcStart) allocated = trace at harmless ⊢
  have run : Run GcSteps (some gcStart) trace := eq ▸ run_traced _ _ _
  exact (ledgerKept_iff run).mpr harmless

/-- Seven blocks fill the slots 0 to 6; the last is freed, and the slot that the next block takes is
that of the first. -/
def overwrittenSlot : List GcOp :=
  (List.range 7).map (fun i => .malloc (i + 1) 1 1) ++ [.free 7, .malloc 8 1 1]

theorem ledgerKept_fails :
    ¬∀ trace, Run GcSteps (some gcStart) trace → EveryState LedgerStands (some gcStart) trace := by
  refine traced_fails (f := gcStep) overwrittenSlot (fun _ _ _ step => step) ?_
  rintro ⟨s, at_end, kept⟩
  have ended : (final (some gcStart) (traced gcStep (some gcStart) overwrittenSlot)).map
      (fun s => (decide (1 ∈ s.live), (gfcGcFree 1 s.gc).1)) = some (true, gfcGcNotFound) := by
    decide +kernel
  rw [at_end, Option.map_some, Option.some.injEq, Prod.mk.injEq, decide_eq_true_eq] at ended
  obtain ⟨live, lost⟩ := ended
  have freed := kept.freed 1 live
  rw [lost] at freed
  exact absurd freed (by decide)

end Guardwatch
