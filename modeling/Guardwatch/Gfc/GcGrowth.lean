import Guardwatch.Gfc.GcAccess
import Guardwatch.Lib.Runs

/-! What is in the slots that are added where the ledger grows, and the runs in which every access
is within the arrays. -/

namespace Guardwatch

open Labelled

/-! ### The slots that are added -/

/-- The bit of the slot is clear, and it has no block. -/
def SlotFree (gc : GfcGc) (i : Nat) : Prop :=
  byteBit (gc.bits (i / 8)) (i % 8) = false ∧ (gc.ptrs i).ptr = 0

instance (gc : GfcGc) (i : Nat) : Decidable (SlotFree gc i) :=
  inferInstanceAs (Decidable (_ ∧ _))

theorem byte_clear : ∀ byte : UInt8, (∀ k < 8, byteBit byte k = false) ↔ byte = 0 :=
  Bytes.forall_uint8 (by decide +kernel)

/-- An added slot after the one that is used has what `realloc` left in the enlarged arrays. -/
theorem slotFree_added (grown : Growth) {ret : Nat} (nonnull : ret ≠ 0) (size len : UInt64)
    {gc : GfcGc} (at_least : gfcGcIncCount ≤ gc.len) (aligned : 8 ∣ gc.len) (full : Full gc) {i : Nat}
    (above : gc.len < i) (below : i < gc.len + gfcGcIncCount) :
    SlotFree (gfcGcMalloc grown ret size len gc).2 i ↔
      (i / 8 ≠ gc.len / 8 → byteBit (grown.bits (i / 8)) (i % 8) = false) ∧
        (grown.ptrs i).ptr = 0 := by
  have past : findFree gc.bits (gc.len / 8) 0 = (0 + gc.len / 8, 0) :=
    findFree_full fun i below => full i (by omega)
  have at_end : gc.len / 8 * 8 = gc.len := Nat.div_mul_cancel aligned
  have later : i ≠ gc.len := by omega
  have new : ¬i < gc.len := by omega
  simp only [SlotFree, gfcGcMalloc, nonnull, ↓reduceIte, past, Nat.zero_add, Nat.add_zero, at_end,
    ge_iff_le, Nat.le_refl, Function.update_of_ne later, new]
  refine and_congr_left fun _ => ?_
  by_cases first : i / 8 = gc.len / 8
  · have offset : i % 8 ≠ 0 := by omega
    have clear : ∀ k < 8, k ≠ 0 → byteBit 0b10000000 k = false := by decide
    simp [first, clear _ (Nat.mod_lt i (by decide)) offset]
  · have cleared : i / 8 ≠ gc.len := by
      have : gc.len + 64 ≤ 2 * gc.len := by
        have : 64 ≤ gc.len := at_least
        omega
      have : i < gc.len + 64 := below
      omega
    have byte : ¬i / 8 < gc.len / 8 := by omega
    simp [first, Function.update_of_ne cleared, byte]

/-- The slots that an allocation adds are free, but for the one that it uses, if and only if
`realloc` leaves zero bytes in the added bytes of the bitmap after the first, and null addresses in
the added slots after the first. -/
theorem gfcGcMalloc_addsFree (grown : Growth) {ret : Nat} (nonnull : ret ≠ 0) (size len : UInt64)
    {gc : GfcGc} (at_least : gfcGcIncCount ≤ gc.len) (aligned : 8 ∣ gc.len) (full : Full gc) :
    (∀ i, gc.len < i → i < gc.len + gfcGcIncCount →
        SlotFree (gfcGcMalloc grown ret size len gc).2 i) ↔
      (∀ j, gc.len / 8 < j → j < (gc.len + gfcGcIncCount) / 8 → grown.bits j = 0) ∧
        ∀ i, gc.len < i → i < gc.len + gfcGcIncCount → (grown.ptrs i).ptr = 0 := by
  have added := fun i => slotFree_added grown nonnull size len at_least aligned full (i := i)
  constructor
  · intro free
    refine ⟨fun j above below => (byte_clear _).mp fun k bit => ?_, fun i above below =>
      ((added i above below).mp (free i above below)).2⟩
    have inside : j * 8 + k < gc.len + gfcGcIncCount := by omega
    have after : gc.len < j * 8 + k := by omega
    have clear := ((added _ after inside).mp (free _ after inside)).1 (by omega)
    rwa [show (j * 8 + k) / 8 = j by omega, show (j * 8 + k) % 8 = k by omega] at clear
  · rintro ⟨bits, ptrs⟩ i above below
    refine (added i above below).mpr ⟨fun later => ?_, ptrs i above below⟩
    rw [bits (i / 8) (by omega) (by unfold gfcGcIncCount at *; omega)]
    simp [byteBit]

/-! ### Runs -/

/-- The ledger, and of the last call the accesses that it made to the arrays, the number of slots
before it, and the address that it returned. -/
structure GrowthRun where
  gc : GfcGc
  accesses : List GcAccess
  before : Nat
  returned : Option Nat

/-- Any call, with any address that `malloc` or `realloc` may return and whatever `realloc` may leave
in the enlarged arrays. -/
def growthStep (s : GrowthRun) (call : GcCall) : GrowthRun :=
  ⟨(call.program.run s.gc).state, (call.program.run s.gc).records, s.gc.len,
    (call.program.run s.gc).value⟩

def GrowthSteps (s : GrowthRun) (call : GcCall) (t : GrowthRun) : Prop := t = growthStep s call

def growthStart : GrowthRun := ⟨gfcGcInit, [], gfcGcIncCount, none⟩

/-- Every access of the last call is within the arrays, and where the call enlarged the ledger the
slots that it added are free, but for the one of the block. -/
structure GrowthKept (s : GrowthRun) : Prop where
  bounds : ∀ access ∈ s.accesses, access.InBounds
  clean : s.before < s.gc.len →
    ∃ used < s.gc.len, s.returned = some (s.gc.ptrs used).ptr ∧
      ∀ i, s.before ≤ i → i < s.gc.len → i ≠ used → SlotFree s.gc i

/-- An allocation finds a byte of the bitmap that is not full. -/
def FindsRoom (s : GrowthRun) : GcCall → Prop
  | .malloc _ ret _ _ => ret ≠ 0 → ¬Full s.gc
  | _ => True

instance (s : GrowthRun) : ∀ call, Decidable (FindsRoom s call)
  | .malloc _ ret _ _ => inferInstanceAs (Decidable (ret ≠ 0 → ¬Full s.gc))
  | .realloc .. | .free .. => .isTrue trivial

/-- A ledger that has not grown. -/
structure Ungrown (s : GrowthRun) : Prop where
  bounds : ∀ access ∈ s.accesses, access.InBounds
  len : s.gc.len = gfcGcIncCount
  before : s.before = gfcGcIncCount

theorem Ungrown.kept {s : GrowthRun} (ungrown : Ungrown s) : GrowthKept s := by
  refine ⟨ungrown.bounds, fun grown => ?_⟩
  rw [ungrown.before, ungrown.len] at grown
  exact absurd grown (Nat.lt_irrefl _)

theorem gfcGcRealloc_len {ptr ret : Nat} {size len : UInt64} {gc : GfcGc} {result : Nat × GfcGc}
    (done : gfcGcRealloc ptr ret size len gc = some result) : result.2.len = gc.len := by
  unfold gfcGcRealloc at done
  split at done
  · cases done
    rfl
  · split at done
    · cases done
      rfl
    · cases done

theorem gfcGcFree_len (ptr : Nat) (gc : GfcGc) : (gfcGcFree ptr gc).2.len = gc.len := by
  unfold gfcGcFree
  split
  · rfl
  · split <;> rfl

theorem Ungrown.aligned {s : GrowthRun} (ungrown : Ungrown s) : 8 ∣ s.gc.len := by
  rw [ungrown.len]
  decide

theorem ungrown_step {s t : GrowthRun} {call : GcCall} (ungrown : Ungrown s)
    (room : FindsRoom s call) (step : GrowthSteps s call t) : Ungrown t := by
  obtain rfl := step
  cases call with
  | malloc grown ret size len =>
    obtain ⟨within, same⟩ := mallocAccesses_within grown ret size len room
    refine ⟨(inArrays_malloc_iff (Nat.le_of_eq ungrown.len.symm) ungrown.aligned).mpr room, ?_,
      ungrown.len⟩
    simpa [growthStep, GcCall.program, within.state_eq, same] using ungrown.len
  | realloc ptr ret size len =>
    have within := reallocAccesses_within ptr ret size len s.gc
    refine ⟨inArrays_realloc ptr ret size len s.gc, ?_, ungrown.len⟩
    cases done : gfcGcRealloc ptr ret size len s.gc with
    | none => simpa [growthStep, GcCall.program, within.state_eq, done] using ungrown.len
    | some result =>
      simpa [growthStep, GcCall.program, within.state_eq, done, gfcGcRealloc_len done]
        using ungrown.len
  | free ptr =>
    have within := freeAccesses_within ptr ungrown.aligned
    refine ⟨inArrays_free ptr ungrown.aligned, ?_, ungrown.len⟩
    simpa [growthStep, GcCall.program, within.state_eq, gfcGcFree_len] using ungrown.len

theorem findsRoom_of_kept {s t : GrowthRun} {call : GcCall} (ungrown : Ungrown s)
    (step : GrowthSteps s call t) (kept : GrowthKept t) : FindsRoom s call := by
  obtain rfl := step
  cases call with
  | malloc grown ret size len =>
    exact (inArrays_malloc_iff (Nat.le_of_eq ungrown.len.symm) ungrown.aligned).mp kept.bounds
  | realloc ptr ret size len => trivial
  | free ptr => trivial

theorem ungrown_start : Ungrown growthStart := ⟨nofun, rfl, rfl⟩

/-- The accesses of a run are all within the arrays, and the slots that it adds free, if and only if
no allocation finds every byte of the bitmap full: one that does enlarges the ledger, and clears a
byte past the end of the enlarged bitmap. -/
theorem growthKept_iff {trace : List (GcCall × GrowthRun)}
    (run : Run GrowthSteps growthStart trace) :
    EveryState GrowthKept growthStart trace ↔ EveryStep FindsRoom growthStart trace :=
  run.everyState_iff ungrown_start (fun _ ungrown => ungrown.kept)
    (fun _ _ _ ungrown room step => ungrown_step ungrown room step)
    fun _ _ _ ungrown step kept => findsRoom_of_kept ungrown step kept

def growthCall (s : GrowthRun) (call : GcCall) : Option GrowthRun := some (growthStep s call)

def reused : List GcCall :=
  [.malloc clearGrowth 1 1 10, .malloc clearGrowth 2 8 4, .realloc 1 3 1 20, .free 2,
    .malloc clearGrowth 2 1 1, .free 3]

theorem growthKept_iff_reused :
    EveryState GrowthKept growthStart (traced growthCall growthStart reused) := by
  have room : EveryStep FindsRoom growthStart (traced growthCall growthStart reused) := by
    decide +kernel
  generalize eq : traced growthCall growthStart reused = trace at room ⊢
  have run : Run GrowthSteps growthStart trace :=
    eq ▸ (run_traced growthCall growthStart reused).mono fun _ _ _ step =>
      (Option.some.inj step).symm
  exact (growthKept_iff run).mpr room

/-- The block after the 64 that fill the ledger of `gfc_gc_init`. -/
def blocks65 : List GcCall := (List.range 65).map fun i => .malloc clearGrowth (i + 1) 1 1

theorem growthKept_fails :
    ¬∀ trace, Run GrowthSteps growthStart trace → EveryState GrowthKept growthStart trace := by
  refine traced_fails (f := growthCall) blocks65 (fun _ _ _ step => (Option.some.inj step).symm)
    fun kept => ?_
  have bad : ∃ access ∈ (final growthStart (traced growthCall growthStart blocks65)).accesses,
      ¬access.InBounds := by decide +kernel
  obtain ⟨access, member, bad⟩ := bad
  exact bad (kept.bounds access member)

end Guardwatch
