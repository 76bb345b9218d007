import Guardwatch.Gfc.WsStream
import Guardwatch.Lib.Runs

/-! The bytes that `gfc_ws_recv` writes to the buffer of its caller: which frames it writes past the
end of the block. -/

namespace Guardwatch

open Labelled

/-- A call; there is no further one after a call that writes outside the block, or reallocates one
that is released. -/
def recvStep : Option (GfcWs × WsOut) → WsMemory → Option (Option (GfcWs × WsOut))
  | none, _ => none
  | some (ws, out), memory => some ((gfcWsRecv memory ws out).map Prod.snd)

/-- The length of the frame that comes next, and the stream from which its payload is received. -/
def frameAhead : List UInt8 → Option (UInt64 × List UInt8)
  | [] => none
  | curByte :: bytes =>
    if curByte &&& 0xF = frmClse then none
    else
      match streamLength bytes with
      | none => none
      | some (length, bytes) =>
        (streamSkipped (curByte &&& 0xF) length bytes).map fun skipped => (length, skipped.2)

/-- The block has room for the payload and the NUL behind it. A payload as long as the block is not
there as a whole, and one of 2^64 - 1 bytes, whose block would have none, not at all. For a released
block that is not to be reallocated there is nothing to write. -/
def WsOut.RoomFor (out : WsOut) (memory : WsMemory) (length : UInt64) (payload : List UInt8) :
    Prop :=
  if out.released then ¬out.buffSize < length ∧ length ≠ 0 ∧ payload = []
  else
    (length = out.buffSize → payload.length < length.toNat) ∧
      (length = -1 → out.buffSize < length → out.allocate memory length = none ∨ payload = [])

/-- What a call needs so as to stay inside the block. -/
def HasRoom (state : Option (GfcWs × WsOut)) (memory : WsMemory) : Prop :=
  ∀ ws out, state = some (ws, out) → ∀ length payload,
    frameAhead ws.pending = some (length, payload) → out.RoomFor memory length payload

/-- A byte of the payload, or the NUL behind it, has no place in a block of the given size. -/
def Overruns (length : Nat) (payload : List UInt8) (size : Nat) : Prop :=
  size < min length payload.length ∨ length ≤ payload.length ∧ size ≤ length

/-- The call reallocates a released block, or writes where its block has no place. -/
def Strays (memory : WsMemory) (out : WsOut) (length : UInt64) (payload : List UInt8) : Prop :=
  (out.released = true ∧ out.buffSize < length) ∨
    ∃ out', out.allocate memory length = some out' ∧
      Overruns length.toNat payload (out'.buff.getD []).length

/-- The caller's size is that of its block, or the block is released. -/
def WsOut.Usable (out : WsOut) : Prop :=
  (∃ room, out.Sized room) ∨ out.released = true ∧ out.buff = some []

section Overruns

variable {memory : WsMemory} {out : WsOut} {room : Nat} {length : UInt64} {payload : List UInt8}

theorem streamReceive_none_iff (left i : Nat) (block bytes : List UInt8)
    (inside : i ≤ block.length) :
    streamReceive left i block bytes = none ↔ block.length < i + min left bytes.length := by
  induction left generalizing i block bytes with
  | zero => simp [streamReceive, inside]
  | succ left ih =>
    cases bytes with
    | nil => simp [streamReceive, inside]
    | cons byte bytes =>
      rw [streamReceive, List.length_cons]
      split
      · rw [ih (i + 1) (block.set i byte) bytes (by rw [List.length_set]; omega), List.length_set]
        omega
      · exact iff_of_true rfl (by omega)

theorem streamReceive_some {left i : Nat} {block bytes block' rest : List UInt8} {done : Bool}
    (received : streamReceive left i block bytes = some (done, rest, block')) :
    block'.length = block.length ∧ (done = true ↔ left ≤ bytes.length) := by
  induction left generalizing i block bytes with
  | zero =>
    cases received
    simp
  | succ left ih =>
    cases bytes with
    | nil =>
      cases received
      simp
    | cons byte bytes =>
      rw [streamReceive] at received
      split at received
      · obtain ⟨size, all⟩ := ih received
        rw [List.length_set] at size
        rw [List.length_cons, all]
        exact ⟨size, by omega⟩
      · cases received

theorem streamPayload_none_iff {opcode : UInt8} {bytes : List UInt8} :
    streamPayload memory opcode length bytes out = none ↔
      ∃ payload, streamSkipped opcode length bytes = some ((), payload) ∧
        Strays memory out length payload := by
  unfold streamPayload Strays
  cases streamSkipped opcode length bytes with
  | none => simp
  | some skipped =>
    obtain ⟨-, payload⟩ := skipped
    dsimp only
    by_cases dangling : out.released = true ∧ out.buffSize < length
    · rw [if_pos dangling]
      exact iff_of_true rfl ⟨payload, rfl, .inl dangling⟩
    simp only [dangling, ↓reduceIte, false_or]
    clear dangling
    cases out.allocate memory length with
    | none => simp
    | some out' =>
      have none_iff := streamReceive_none_iff length.toNat 0 (out'.buff.getD []) payload
        (Nat.zero_le _)
      rw [Nat.zero_add] at none_iff
      dsimp only
      cases received : streamReceive length.toNat 0 (out'.buff.getD []) payload with
      | none => exact iff_of_true rfl ⟨payload, rfl, out', rfl, .inl (none_iff.mp received)⟩
      | some result =>
        obtain ⟨done, rest, block⟩ := result
        obtain ⟨size, all⟩ := streamReceive_some received
        have written : ¬(out'.buff.getD []).length < min length.toNat payload.length := by
          rw [← none_iff, received]
          nofun
        cases done <;> simp_all [Overruns]

/-- What the room for a frame comes to, where the caller's size is that of its block. -/
theorem roomFor_sized (sized : out.Sized room) :
    out.RoomFor memory length payload ↔ ¬Strays memory out length payload := by
  have last : (-1 : UInt64).toNat = 2 ^ 64 - 1 := rfl
  have word := length.toNat_lt
  obtain ⟨block, size, intact⟩ := sized
  simp only [WsOut.RoomFor, Strays, intact, Bool.false_eq_true, ↓reduceIte, false_and, false_or]
  by_cases larger : out.buffSize < length
  · have apart : length ≠ out.buffSize := by
      rintro rfl
      exact UInt64.lt_irrefl _ larger
    cases allocated : out.allocate memory length with
    | none => simp [apart]
    | some out' =>
      have grown := (allocate_length intact allocated larger).block
      simp only [apart, larger, false_implies, true_and, forall_const, reduceCtorEq, false_or,
        Option.some.injEq, exists_eq_left', grown, Overruns]
      by_cases wraps : length = -1
      · have none : (length + 1).toNat = 0 := by rw [wraps]; rfl
        rw [none, wraps]
        simp only [last, ← List.length_eq_zero_iff, forall_const]
        omega
      · have next : (length + 1).toNat = length.toNat + 1 := by
          have below : length.toNat ≠ 2 ^ 64 - 1 := fun same => wraps (UInt64.toNat_inj.mp same)
          rw [UInt64.toNat_add, UInt64.toNat_one]
          omega
        rw [next]
        exact iff_of_true (fun same => absurd same wraps) (by omega)
  · have kept : out.allocate memory length = some out := if_neg larger
    have level : length = out.buffSize ↔ length.toNat = room := by
      rw [← UInt64.toNat_inj, size]
    have at_most : length.toNat ≤ room := by
      rwa [UInt64.lt_iff_toNat_lt, size, Nat.not_lt] at larger
    simp only [level, larger, kept, false_implies, implies_true, and_true, Option.some.injEq,
      exists_eq_left', block, Overruns]
    omega

/-- And where the block is released. -/
theorem roomFor_released (released : out.released = true) (buff : out.buff = some []) :
    out.RoomFor memory length payload ↔ ¬Strays memory out length payload := by
  simp only [WsOut.RoomFor, Strays, released, ↓reduceIte, true_and]
  by_cases larger : out.buffSize < length
  · exact iff_of_false (fun room => room.1 larger) fun within => within (.inl larger)
  · have kept : out.allocate memory length = some out := if_neg larger
    simp only [larger, kept, not_false_eq_true, true_and, false_or, Option.some.injEq,
      exists_eq_left', buff, Option.getD_some, List.length_nil, Overruns, Ne, ← UInt64.toNat_inj,
      UInt64.toNat_zero, ← List.length_eq_zero_iff]
    omega

theorem roomFor_iff (usable : out.Usable) :
    out.RoomFor memory length payload ↔ ¬Strays memory out length payload := by
  rcases usable with ⟨room, sized⟩ | ⟨released, buff⟩
  · exact roomFor_sized sized
  · exact roomFor_released released buff

end Overruns

/-! ### Calls -/

section Calls

variable {memory : WsMemory} {out : WsOut} {room : Nat}

theorem streamRecv_none_iff (bytes : List UInt8) :
    streamRecv memory bytes out = none ↔
      ∃ length payload, frameAhead bytes = some (length, payload) ∧
        Strays memory out length payload := by
  unfold streamRecv frameAhead
  cases bytes with
  | nil => simp
  | cons curByte bytes =>
    dsimp only
    split
    · simp
    · cases streamLength bytes with
      | none => simp
      | some header =>
        obtain ⟨length, bytes⟩ := header
        dsimp only
        rw [streamPayload_none_iff]
        cases streamSkipped (curByte &&& 0xF) length bytes with
        | none => simp
        | some rest =>
          obtain ⟨⟨⟩, payload⟩ := rest
          simp

theorem WsOut.Usable.allocate {out' : WsOut} {length : UInt64} (usable : out.Usable)
    (fresh : ¬(out.released = true ∧ out.buffSize < length))
    (allocated : out.allocate memory length = some out') : out'.Usable := by
  by_cases larger : out.buffSize < length
  · have intact : out.released = false := by
      rw [Bool.eq_false_iff]
      exact fun released => fresh ⟨released, larger⟩
    exact .inl ⟨_, allocate_length intact allocated larger⟩
  · rw [WsOut.allocate, if_neg larger] at allocated
    exact Option.some.inj allocated ▸ usable

theorem WsOut.Usable.refused (usable : out.Usable) (length : UInt64) :
    (out.refused length).Usable := by
  unfold WsOut.refused
  split
  · exact .inr ⟨rfl, rfl⟩
  · exact usable

/-- The bytes of the block may change, its size does not. -/
theorem WsOut.Usable.withBlock {block : List UInt8} (usable : out.Usable)
    (kept : block.length = (out.buff.getD []).length) (frmType : UInt8) :
    WsOut.Usable { out with buff := some block, frmType := frmType } := by
  rcases usable with ⟨room, sized⟩ | ⟨released, buff⟩
  · exact .inl ⟨room, kept.trans sized.block, sized.size, sized.intact⟩
  · rw [buff] at kept
    exact .inr ⟨released, congrArg some (List.eq_nil_of_length_eq_zero kept)⟩

/-- The caller's size stays that of its block, unless the block is released. -/
theorem streamPayload_usable {opcode : UInt8} {length : UInt64} {bytes : List UInt8}
    {call : StreamCall} (usable : out.Usable)
    (made : streamPayload memory opcode length bytes out = some call) : call.out.Usable := by
  unfold streamPayload at made
  split at made
  · cases made
    exact usable
  · split at made
    · cases made
    rename_i fresh
    split at made
    · cases made
      exact usable.refused length
    · rename_i allocated at_memory
      have usable' := usable.allocate fresh at_memory
      split at made
      · cases made
      · rename_i received
        cases made
        have kept := (streamReceive_some received).1
        cases at_buff : allocated.buff with
        | none =>
          have same : { allocated with buff := none } = allocated := by rw [← at_buff]
          simp only [StreamCall.out, Option.map_none]
          rwa [same]
        | some old =>
          simp only [StreamCall.out, Option.map_some]
          exact usable'.withBlock kept allocated.frmType
      · rename_i received
        split at made
        · cases made
          refine usable'.withBlock ?_ opcode
          rw [List.length_set, (streamReceive_some received).1]
        · cases made

theorem streamRecv_usable {bytes : List UInt8} {call : StreamCall} (usable : out.Usable)
    (made : streamRecv memory bytes out = some call) : call.out.Usable := by
  unfold streamRecv at made
  split at made
  · cases made
    exact usable
  · dsimp only at made
    split at made
    · cases made
      exact usable
    · split at made
      · cases made
        exact usable
      · exact streamPayload_usable usable made

theorem hasRoom_iff {ws : GfcWs} (usable : out.Usable) :
    HasRoom (some (ws, out)) memory ↔ gfcWsRecv memory ws out ≠ none := by
  have follows := gfcWsRecv_follows memory ws out
  have outside : gfcWsRecv memory ws out = none ↔ streamRecv memory ws.pending out = none := by
    generalize streamRecv memory ws.pending out = streamed at follows ⊢
    generalize gfcWsRecv memory ws out = call at follows ⊢
    cases follows <;> simp
  rw [Ne, outside, streamRecv_none_iff]
  constructor
  · rintro room ⟨length, payload, ahead, strays⟩
    exact (roomFor_iff usable).mp (room ws out rfl length payload ahead) strays
  · rintro inside _ _ ⟨⟩ length payload ahead
    exact (roomFor_iff usable).mpr fun strays => inside ⟨length, payload, ahead, strays⟩

theorem gfcWsRecv_usable {ws ws' : GfcWs} {ret : Int} {out' : WsOut} (usable : out.Usable)
    (call : gfcWsRecv memory ws out = some (ret, ws', out')) : out'.Usable := by
  have follows := gfcWsRecv_follows memory ws out
  rw [call] at follows
  cases made : streamRecv memory ws.pending out with
  | none =>
    rw [made] at follows
    cases follows
  | some streamed =>
    have usable' := streamRecv_usable usable made
    rw [made] at follows
    cases follows <;> exact usable'

end Calls

/-- The caller's variables are there, with a block of the caller's size or a released one. -/
def RecvUsable (state : Option (GfcWs × WsOut)) : Prop :=
  ∃ ws out, state = some (ws, out) ∧ WsOut.Usable out

theorem recvUsable_step {state next : Option (GfcWs × WsOut)} {memory : WsMemory}
    (usable : RecvUsable state) (taken : recvStep state memory = some next) :
    (HasRoom state memory → RecvUsable next) ∧ (next ≠ none → HasRoom state memory) := by
  obtain ⟨ws, out, rfl, usable⟩ := usable
  obtain rfl := Option.some.inj taken
  rw [hasRoom_iff usable]
  cases call : gfcWsRecv memory ws out with
  | none => exact ⟨fun room => absurd rfl room, fun inside => absurd rfl inside⟩
  | some result =>
    obtain ⟨ret, ws', out'⟩ := result
    exact ⟨fun _ => ⟨ws', out', rfl, gfcWsRecv_usable usable call⟩, fun _ => nofun⟩

/-- In a run of calls that starts without a block, every byte is written inside the block if and
only if each call has room for the frame that comes next. -/
theorem boundsKept_iff (ws : GfcWs) (frmType : UInt8)
    (trace : List (WsMemory × Option (GfcWs × WsOut)))
    (run : Run (fun state memory next => recvStep state memory = some next)
      (some (ws, { buff := none, buffSize := 0, frmType := frmType })) trace) :
    EveryState (fun state => state ≠ none)
        (some (ws, { buff := none, buffSize := 0, frmType := frmType })) trace ↔
      EveryStep HasRoom (some (ws, { buff := none, buffSize := 0, frmType := frmType })) trace :=
  run.everyState_iff ⟨ws, _, rfl, .inl ⟨0, rfl, rfl, rfl⟩⟩
    (fun _ ⟨_, _, there, _⟩ => by rw [there]; nofun)
    (fun _ _ _ usable room taken => (recvUsable_step usable taken).1 room)
    fun _ _ _ usable taken => (recvUsable_step usable taken).2

/-- A message of two bytes, and one of three. -/
def growingFrames : GfcWs :=
  afterHandshake [⟨[0x81, 2, 104, 105, 0x81, 3, 121, 101, 115], by decide, by decide⟩]

theorem boundsKept_iff_oneCall :
    EveryState (fun state => state ≠ none) (some (growingFrames, noBuffer))
        (traced recvStep (some (growingFrames, noBuffer)) [zeroAlloc.memory]) ↔
      EveryStep HasRoom (some (growingFrames, noBuffer))
        (traced recvStep (some (growingFrames, noBuffer)) [zeroAlloc.memory]) :=
  boundsKept_iff growingFrames 0 _ (run_traced _ _ _)

/-- The block of the first message has three bytes, and the second message fills it. -/
theorem boundsKept_fails :
    ¬∀ (ws : GfcWs) (frmType : UInt8) (trace : List (WsMemory × Option (GfcWs × WsOut))),
      Run (fun state memory next => recvStep state memory = some next)
        (some (ws, { buff := none, buffSize := 0, frmType := frmType })) trace →
      EveryState (fun state => state ≠ none)
        (some (ws, { buff := none, buffSize := 0, frmType := frmType })) trace := by
  intro every
  have outside : (final (some (growingFrames, noBuffer)) (traced recvStep
      (some (growingFrames, noBuffer)) [zeroAlloc.memory, zeroAlloc.memory])).isNone = true := by
    decide +kernel
  refine traced_fails (f := recvStep) [zeroAlloc.memory, zeroAlloc.memory]
    (fun _ _ _ taken => taken) ?_ (every growingFrames 0)
  exact not_not.mpr (Option.isNone_iff_eq_none.mp outside)

end Guardwatch
