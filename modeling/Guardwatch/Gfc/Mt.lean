import Guardwatch.Lib.Runs
import Mathlib.Data.List.Basic
import Mathlib.Data.UInt

/-! The thread pool of `gfc_mt.c`. A section under the lock, a read or a write of `threads->size`
outside it, and a call of `pthread_create` are each one step. -/

namespace Guardwatch

open Labelled

/-- Where a call of `gfc_mt_do` is: at its loop under the lock, behind it, with the size that it
read, with the size written and its thread to create, or returned. -/
inductive MtDo
  | waiting
  | passed
  | read (size : UInt32)
  | written
  | returned
deriving DecidableEq

/-- Where the call of `gfc_mt_free` is. At the release it counts the workers. -/
inductive MtFree
  | waiting
  | passed
  | released (workers : Nat)
deriving DecidableEq

/-- `workers` is the number of threads that were started and have not yet decremented the size. -/
structure GfcMt where
  size : UInt32
  max : UInt32
  calls : List MtDo
  workers : Nat
  free : MtFree
deriving DecidableEq

def gfcMtNew (count : UInt32) : GfcMt :=
  { size := 0, max := count, calls := [], workers := 0, free := .waiting }

/-- The steps of the calls of `gfc_mt_do`, which are numbered in the order in which they are made,
of `gfc_mt_entry` and of `gfc_mt_free`. -/
inductive MtAction
  | call
  | pass (i : Nat)
  | read (i : Nat)
  | write (i : Nat)
  | create (i : Nat)
  | decrement
  | drained
  | release

/-- The state after a step on a pool that is not released, or `none` where it is not possible. -/
def mtMove (s : GfcMt) : MtAction → Option GfcMt
  | .call => some { s with calls := s.calls ++ [.waiting] }
  | .pass i =>
    match s.calls[i]? with
    | some .waiting =>
      if s.size ≥ s.max then none else some { s with calls := s.calls.set i .passed }
    | _ => none
  | .read i =>
    match s.calls[i]? with
    | some .passed => some { s with calls := s.calls.set i (.read s.size) }
    | _ => none
  | .write i =>
    match s.calls[i]? with
    | some (.read size) => some { s with size := size + 1, calls := s.calls.set i .written }
    | _ => none
  | .create i =>
    match s.calls[i]? with
    | some .written => some { s with workers := s.workers + 1, calls := s.calls.set i .returned }
    | _ => none
  | .decrement =>
    if s.workers = 0 then none else some { s with size := s.size - 1, workers := s.workers - 1 }
  | .drained =>
    if s.free = .waiting ∧ ¬s.size > 0 then some { s with free := .passed } else none
  | .release => if s.free = .passed then some { s with free := .released s.workers } else none

/-- Nothing is done with a pool that was released. -/
def mtStep (s : GfcMt) (action : MtAction) : Option GfcMt :=
  match s.free with
  | .released _ => none
  | _ => mtMove s action

/-- The call has incremented the size, or is about to with the value it read. -/
def MtDo.updating : MtDo → Bool
  | .read _ | .written => true
  | _ => false

/-- The call is behind the test of the size, which it has yet to write. -/
def MtDo.unwritten : MtDo → Bool
  | .passed | .read _ => true
  | _ => false

/-- The calls behind the test that have not yet written the size. -/
def GfcMt.pending (s : GfcMt) : Nat := s.calls.countP MtDo.unwritten

/-- While no call is updating it the size is the number of workers, which is bounded, and which was
0 if the pool was released. -/
structure GfcMt.Counts (s : GfcMt) : Prop where
  size_eq : (∀ call ∈ s.calls, call.updating = false) → s.size.toNat = s.workers
  bounded : s.workers ≤ s.max.toNat
  drained : ∀ workers, s.free = .released workers → workers = 0

/-- What the pool needs of a step: a call passes the test only where there is room for it beside the
calls that passed it before, it writes the size while that is still the one it read, and it starts
no thread between the test and the release of `gfc_mt_free`. -/
def GfcMt.Undisturbed (s : GfcMt) : MtAction → Prop
  | .pass _ => s.size.toNat + s.pending < s.max.toNat
  | .write i => s.calls[i]? = some (.read s.size)
  | .create _ => s.free ≠ .passed
  | _ => True

instance (s : GfcMt) : ∀ action, Decidable (s.Undisturbed action)
  | .pass _ => inferInstanceAs (Decidable (_ < _))
  | .write _ => inferInstanceAs (Decidable (_ = _))
  | .create _ => inferInstanceAs (Decidable (_ ≠ _))
  | .call | .read _ | .decrement | .drained | .release => inferInstanceAs (Decidable True)

/-! ### Counting the calls -/

theorem countP_move {α : Type} {p : α → Bool} {l : List α} {i : Nat} {a : α} (b : α)
    (at_i : l[i]? = some a) :
    (l.set i b).countP p + (p a).toNat = l.countP p + (p b).toNat := by
  obtain ⟨inside, rfl⟩ := List.getElem?_eq_some_iff.mp at_i
  rw [List.countP_set inside]
  cases holds : p l[i] with
  | false => cases p b <;> simp
  | true =>
    have counted : 0 < l.countP p := List.countP_pos_iff.mpr ⟨_, List.getElem_mem inside, holds⟩
    cases p b with
    | false =>
      simp only [Bool.toNat_true, Bool.toNat_false, if_true, Bool.false_eq_true, if_false]
      omega
    | true =>
      simp only [Bool.toNat_true, if_true]
      omega

/-- The call has written the size and has yet to create its thread. -/
def MtDo.starting : MtDo → Bool
  | .written => true
  | _ => false

theorem MtDo.updating_of_starting {call : MtDo} (starting : call.starting = true) :
    call.updating = true := by
  cases call with
  | written => rfl
  | _ => cases starting

/-- The size counts the workers and the threads that are about to be created. There is room for
every call behind the test, and no worker while `gfc_mt_free` is behind its own. -/
structure MtInvariant (s : GfcMt) : Prop where
  size_eq : s.size.toNat = s.workers + s.calls.countP MtDo.starting
  room : s.size.toNat + s.calls.countP MtDo.unwritten ≤ s.max.toNat
  idle : s.free = .passed → s.workers = 0
  drained : ∀ workers, s.free = .released workers → workers = 0

theorem mtInvariant_new (count : UInt32) : MtInvariant (gfcMtNew count) :=
  ⟨rfl, Nat.zero_le _, nofun, nofun⟩

theorem MtInvariant.counts {s : GfcMt} (inv : MtInvariant s) : s.Counts := by
  obtain ⟨size_eq, room, -, drained⟩ := inv
  refine ⟨fun quiet => ?_, by omega, drained⟩
  have unstarted : s.calls.countP MtDo.starting = 0 := by
    refine List.countP_eq_zero.mpr fun call member written => ?_
    exact absurd (MtDo.updating_of_starting written) (by simp [quiet call member])
  omega

section Steps

variable {s t : GfcMt} {i : Nat}

theorem mtMove_of_mtStep {action : MtAction} (taken : mtStep s action = some t) :
    mtMove s action = some t := by
  unfold mtStep at taken
  split at taken
  · cases taken
  · exact taken

theorem mtInvariant_call (inv : MtInvariant s) (taken : mtMove s .call = some t) :
    MtInvariant t := by
  cases taken
  refine ⟨?_, ?_, inv.idle, inv.drained⟩
  · rw [List.countP_append, inv.size_eq]
    rfl
  · rw [List.countP_append]
    exact inv.room

/-- A call moves on, with what that adds to the size and to the workers. -/
theorem MtInvariant.moved {call : MtDo} (inv : MtInvariant s) (at_i : s.calls[i]? = some call)
    (next : MtDo) (size : UInt32) (workers : Nat)
    (size_eq : size.toNat + s.workers + call.starting.toNat =
      s.size.toNat + workers + next.starting.toNat)
    (room : size.toNat + s.calls.countP MtDo.unwritten + next.unwritten.toNat ≤
      s.max.toNat + call.unwritten.toNat)
    (idle : s.free = .passed → workers = 0) :
    MtInvariant { s with calls := s.calls.set i next, size := size, workers := workers } := by
  have starting := countP_move (p := MtDo.starting) next at_i
  have unwritten := countP_move (p := MtDo.unwritten) next at_i
  have before := inv.size_eq
  refine ⟨?_, ?_, idle, inv.drained⟩
  · dsimp only
    omega
  · dsimp only
    omega

theorem mtInvariant_pass (inv : MtInvariant s) (ok : s.Undisturbed (.pass i))
    (taken : mtMove s (.pass i) = some t) : MtInvariant t := by
  simp only [mtMove] at taken
  split at taken
  · rename_i at_i
    split at taken
    · cases taken
    cases taken
    exact inv.moved at_i .passed s.size s.workers rfl ok inv.idle
  · cases taken

theorem mtInvariant_read (inv : MtInvariant s) (taken : mtMove s (.read i) = some t) :
    MtInvariant t := by
  simp only [mtMove] at taken
  split at taken
  · rename_i at_i
    cases taken
    exact inv.moved at_i (.read s.size) s.size s.workers rfl (Nat.succ_le_succ inv.room) inv.idle
  · cases taken

/-- The write of the size that is still the one read adds one to it. -/
theorem mtInvariant_write (inv : MtInvariant s) (ok : s.Undisturbed (.write i))
    (taken : mtMove s (.write i) = some t) : MtInvariant t := by
  have at_i : s.calls[i]? = some (.read s.size) := ok
  simp only [mtMove, at_i] at taken
  cases taken
  have room := inv.room
  have counted := countP_move (p := MtDo.unwritten) .written at_i
  simp only [MtDo.unwritten, Bool.toNat_true, Bool.toNat_false] at counted
  have next : (s.size + 1).toNat = s.size.toNat + 1 := by
    have := s.max.toNat_lt
    rw [UInt32.toNat_add]
    exact Nat.mod_eq_of_lt (by simp; omega)
  refine inv.moved at_i .written (s.size + 1) s.workers ?_ ?_ inv.idle
  · simp only [MtDo.starting, Bool.toNat_true, Bool.toNat_false]
    omega
  · simp only [MtDo.unwritten, Bool.toNat_true, Bool.toNat_false]
    omega

theorem mtInvariant_create (inv : MtInvariant s) (ok : s.Undisturbed (.create i))
    (taken : mtMove s (.create i) = some t) : MtInvariant t := by
  simp only [mtMove] at taken
  split at taken
  · rename_i at_i
    cases taken
    exact inv.moved at_i .returned s.size (s.workers + 1) rfl inv.room fun passed => absurd passed ok
  · cases taken

theorem mtInvariant_decrement (inv : MtInvariant s) (taken : mtMove s .decrement = some t) :
    MtInvariant t := by
  simp only [mtMove] at taken
  split at taken
  · cases taken
  · rename_i some_left
    cases taken
    have size_eq := inv.size_eq
    have room := inv.room
    have previous : (s.size - 1).toNat = s.size.toNat - 1 := by
      refine UInt32.toNat_sub_of_le _ _ ?_
      rw [UInt32.le_iff_toNat_le]
      simp only [UInt32.reduceToNat]
      omega
    exact ⟨by dsimp only; omega, by dsimp only; omega,
      fun passed => absurd (inv.idle passed) some_left, inv.drained⟩

theorem mtInvariant_drained (inv : MtInvariant s) (taken : mtMove s .drained = some t) :
    MtInvariant t := by
  simp only [mtMove] at taken
  split at taken
  · rename_i empty
    cases taken
    refine ⟨inv.size_eq, inv.room, fun _ => ?_, nofun⟩
    have size_eq := inv.size_eq
    have none := empty.2
    rw [gt_iff_lt, UInt32.lt_iff_toNat_lt] at none
    simp only [UInt32.reduceToNat] at none
    dsimp only
    omega
  · cases taken

theorem mtInvariant_release (inv : MtInvariant s) (taken : mtMove s .release = some t) :
    MtInvariant t := by
  simp only [mtMove] at taken
  split at taken
  · rename_i passed
    cases taken
    refine ⟨inv.size_eq, inv.room, nofun, fun workers released => ?_⟩
    cases released
    exact inv.idle passed
  · cases taken

theorem mtInvariant_step {action : MtAction} (inv : MtInvariant s) (ok : s.Undisturbed action)
    (taken : mtStep s action = some t) : MtInvariant t := by
  have moved := mtMove_of_mtStep taken
  cases action with
  | call => exact mtInvariant_call inv moved
  | pass i => exact mtInvariant_pass inv ok moved
  | read i => exact mtInvariant_read inv moved
  | write i => exact mtInvariant_write inv ok moved
  | create i => exact mtInvariant_create inv ok moved
  | decrement => exact mtInvariant_decrement inv moved
  | drained => exact mtInvariant_drained inv moved
  | release => exact mtInvariant_release inv moved

end Steps

/-! ### Runs -/

/-- In every run whose steps are undisturbed the size counts the workers, there are at most `max` of
them, and the pool is released when there are none. -/
theorem counts_of_undisturbed (count : UInt32) (trace : List (MtAction × GfcMt))
    (run : Run (fun s a t => mtStep s a = some t) (gfcMtNew count) trace)
    (undisturbed : EveryStep GfcMt.Undisturbed (gfcMtNew count) trace) :
    EveryState GfcMt.Counts (gfcMtNew count) trace :=
  (run.everyState (mtInvariant_new count)
    (fun _ _ _ inv ok taken => mtInvariant_step inv ok taken) undisturbed).mono fun _ inv =>
      inv.counts

/-- One producer runs two workers one after the other, and releases the pool. -/
def oneProducer : List MtAction :=
  [.call, .pass 0, .read 0, .write 0, .create 0, .decrement,
    .call, .pass 1, .read 1, .write 1, .create 1, .decrement, .drained, .release]

theorem counts_of_undisturbed_oneProducer :
    EveryState GfcMt.Counts (gfcMtNew 1) (traced mtStep (gfcMtNew 1) oneProducer) :=
  counts_of_undisturbed 1 _ (run_traced _ _ _) (by decide)

/-- Two producers pass the test of a pool for one thread before either writes the size. -/
theorem counts_fails :
    ¬∀ (count : UInt32) (trace : List (MtAction × GfcMt)),
      Run (fun s a t => mtStep s a = some t) (gfcMtNew count) trace →
        EveryState GfcMt.Counts (gfcMtNew count) trace := fun every =>
  traced_fails [.call, .call, .pass 0, .pass 1, .read 0, .write 0, .create 0, .read 1, .write 1,
    .create 1] (fun _ _ _ taken => taken) (fun counts => absurd counts.bounded (by decide))
    (every 1)

end Guardwatch
