import Guardwatch.Lib.Bytes
import Guardwatch.Lib.BigEndian

/-! The receiver of `gfc_ws.c`. -/

namespace Guardwatch

def messageLength : Nat := 2048

/-- The bytes of one `recv`. -/
structure WsChunk where
  bytes : List UInt8
  pos : bytes ≠ []
  fits : bytes.length ≤ messageLength

/-- `gfc_ws_t` and what its socket has yet to deliver. The bytes in `frm` are those of the last
`recv`, as many as `amt_read`. -/
structure GfcWs where
  frm : List UInt8
  curPos : Nat
  connected : Bool
  socket : List WsChunk
  inside : curPos ≤ frm.length

/-- `next_byte`; `none` is -1, and leaves the context as it is. -/
def nextByte (ws : GfcWs) : Option UInt8 × GfcWs :=
  if empty : ws.curPos = 0 ∨ ws.curPos = ws.frm.length then
    match ws.socket with
    | [] => (none, ws)
    | chunk :: socket =>
      (some (chunk.bytes.head chunk.pos),
        { ws with
          frm := chunk.bytes
          curPos := 1
          socket := socket
          inside := List.length_pos_iff.mpr chunk.pos })
  else
    have inside := Nat.lt_of_le_of_ne ws.inside (not_or.mp empty).2
    (some (ws.frm.get ⟨ws.curPos, inside⟩), { ws with curPos := ws.curPos + 1, inside := inside })

/-- A reader of bytes, with the context where it has stopped. -/
def WsReader (α : Type) : Type := GfcWs → Option α × GfcWs

instance : Monad WsReader where
  pure a := fun ws => (some a, ws)
  bind reader next := fun ws =>
    match reader ws with
    | (none, ws) => (none, ws)
    | (some a, ws) => next a ws

def WsReader.byte : WsReader UInt8 := nextByte

/-- `skip_frame`. -/
def skipFrame : Nat → WsReader Unit
  | 0 => pure ()
  | size + 1 => do
    let _ ← WsReader.byte
    skipFrame size

/-- The length in the header. After a byte that cannot be read the code goes through the rest of the
header before it returns the error. -/
def wsFrameLength : WsReader UInt64 := do
  let length := (← WsReader.byte) &&& 0x7F
  if length = 126 then
    let high ← WsReader.byte
    let low ← WsReader.byte
    return high.toUInt64 <<< 8 ||| low.toUInt64
  else if length = 127 then
    let byte2 ← WsReader.byte
    let byte3 ← WsReader.byte
    let byte4 ← WsReader.byte
    let byte5 ← WsReader.byte
    let byte6 ← WsReader.byte
    let byte7 ← WsReader.byte
    let byte8 ← WsReader.byte
    let byte9 ← WsReader.byte
    return byte2.toUInt64 <<< 56 ||| byte3.toUInt64 <<< 48 ||| byte4.toUInt64 <<< 40 |||
      byte5.toUInt64 <<< 32 ||| byte6.toUInt64 <<< 24 ||| byte7.toUInt64 <<< 16 |||
      byte8.toUInt64 <<< 8 ||| byte9.toUInt64
  else return length.toUInt64

/-- The blocks of `gfc_gc_malloc` and `gfc_gc_realloc`; `none` is a lack of memory. -/
structure WsMemory where
  malloc : Nat → Option (List UInt8)
  realloc : List UInt8 → Nat → Option (List UInt8)
  malloc_length : ∀ size, ∀ block ∈ malloc size, block.length = size
  realloc_length : ∀ old size, ∀ block ∈ realloc old size, block.length = size

/-- Allocation that does not fail. -/
structure WsAlloc where
  malloc : Nat → List UInt8
  realloc : List UInt8 → Nat → List UInt8
  malloc_length : ∀ size, (malloc size).length = size
  realloc_length : ∀ block size, (realloc block size).length = size

def WsAlloc.memory (alloc : WsAlloc) : WsMemory where
  malloc size := some (alloc.malloc size)
  realloc old size := some (alloc.realloc old size)
  malloc_length size _ member := Option.some.inj member ▸ alloc.malloc_length size
  realloc_length old size _ member := Option.some.inj member ▸ alloc.realloc_length old size

/-- The variables that the caller passes: `*buff`, with the bytes of its block, `*buff_size` and
`*frm_type`. A block that `realloc` has released while `*buff` still points to it has no bytes. -/
structure WsOut where
  buff : Option (List UInt8)
  buffSize : UInt64
  frmType : UInt8
  released : Bool := false

/-- The block for the frame. -/
def WsOut.allocate (out : WsOut) (memory : WsMemory) (frameLength : UInt64) : Option WsOut :=
  if out.buffSize < frameLength then
    (match out.buff with
      | none => memory.malloc (frameLength + 1).toNat
      | some block => memory.realloc block (frameLength + 1).toNat).map fun block =>
        { out with buff := some block, buffSize := frameLength + 1 }
  else some out

/-- The variables where there is no block for the frame. The block for 2^64 - 1 bytes would have
none, and a `realloc` of a block to no bytes releases it and returns `NULL`. -/
def WsOut.refused (out : WsOut) (frameLength : UInt64) : WsOut :=
  if frameLength + 1 = 0 ∧ out.buff ≠ none then { out with buff := some [], released := true }
  else out

/-- The loop that receives the frame, from byte `i` on: whether the bytes were there, the context
and the block. It is `none` where a byte is written outside the block. -/
def receiveFrame : (left : Nat) → (i : Nat) → (block : List UInt8) → GfcWs →
    Option (Bool × GfcWs × List UInt8)
  | 0, _, block, ws => some (true, ws, block)
  | left + 1, i, block, ws =>
    match nextByte ws with
    | (none, ws) => some (false, ws, block)
    | (some byte, ws) =>
      if i < block.length then receiveFrame left (i + 1) (block.set i byte) ws else none

def frmTxt : UInt8 := 1
def frmBin : UInt8 := 2
def frmClse : UInt8 := 8

/-- `gfc_ws_close`. The closed socket delivers nothing more; the bytes in `frm` stay. -/
def gfcWsClose (ws : GfcWs) : GfcWs :=
  if ws.connected then { ws with connected := false, socket := [] } else ws

/-- `gfc_ws_recv` behind the header: what it returns, the context and the caller's variables. It is
`none` where a byte is written to `NULL` or outside the block, or a released block is
reallocated. -/
def gfcWsPayload (memory : WsMemory) (opcode : UInt8) (frameLength : UInt64) (ws : GfcWs)
    (out : WsOut) : Option (Int × GfcWs × WsOut) :=
  match if opcode ≠ frmTxt ∧ opcode ≠ frmBin then skipFrame frameLength.toNat ws
    else (some (), ws) with
  | (none, ws) => some (-1, ws, out)
  | (some (), ws) =>
    if out.released ∧ out.buffSize < frameLength then none
    else match out.allocate memory frameLength with
    | none => some (-1, ws, out.refused frameLength)
    | some out =>
      match receiveFrame frameLength.toNat 0 (out.buff.getD []) ws with
      | none => none
      | some (false, ws, block) => some (1, ws, { out with buff := out.buff.map fun _ => block })
      | some (true, ws, block) =>
        if frameLength.toNat < block.length then
          some (0, ws, { out with
            buff := some (block.set frameLength.toNat 0)
            frmType := opcode })
        else none

/-- `gfc_ws_recv`, with the results as above. -/
def gfcWsRecv (memory : WsMemory) (ws : GfcWs) (out : WsOut) : Option (Int × GfcWs × WsOut) :=
  match nextByte ws with
  | (none, ws) => some (-1, gfcWsClose ws, out)
  | (some curByte, ws) =>
    let opcode := curByte &&& 0xF
    if opcode = frmClse then some (-1, gfcWsClose ws, out)
    else
      match wsFrameLength ws with
      | (none, ws) => some (1, ws, out)
      | (some frameLength, ws) => gfcWsPayload memory opcode frameLength ws out

/-- A frame of the server, without a mask, with the byte of its flags and opcode. -/
structure ServerFrame where
  first : UInt8
  payload : List UInt8
  not_close : first &&& 0xF ≠ frmClse
  short : payload.length < 2 ^ 63

namespace ServerFrame

def opcode (frame : ServerFrame) : UInt8 := frame.first &&& 0xF

/-- The minimal form of a length. -/
def lengthBytes (n : Nat) : List UInt8 :=
  if n < 126 then [UInt8.ofNat n]
  else if n < 2 ^ 16 then 126 :: BigEndian.digits 2 n
  else 127 :: BigEndian.digits 8 n

def encode (frame : ServerFrame) : List UInt8 :=
  frame.first :: (lengthBytes frame.payload.length ++ frame.payload)

/-- The frame is a text or binary frame. -/
def IsMessage (frame : ServerFrame) : Prop := frame.opcode = frmTxt ∨ frame.opcode = frmBin

instance (frame : ServerFrame) : Decidable frame.IsMessage := inferInstanceAs (Decidable (_ ∨ _))

/-- What a call has to give its caller for the frame: a message is in the block, and a frame of
another type is not taken for one. -/
def Delivered (frame : ServerFrame) (ret : Int) (out : WsOut) : Prop :=
  if frame.IsMessage then
    ret = 0 ∧ out.frmType = frame.opcode ∧
      ∃ block, out.buff = some block ∧ frame.payload ++ [0] <+: block
  else ret = 0 → out.frmType ≠ frmTxt ∧ out.frmType ≠ frmBin

end ServerFrame

/-- The bytes that the calls have yet to read. -/
def GfcWs.pending (ws : GfcWs) : List UInt8 :=
  (if ws.curPos = 0 then [] else ws.frm.drop ws.curPos) ++ ws.socket.flatMap WsChunk.bytes

def encodeFrames (frames : List ServerFrame) : List UInt8 := frames.flatMap ServerFrame.encode

/-- Each call reads one of the frames, and no byte behind it, and delivers it. -/
def InStep (alloc : WsAlloc) (later : List UInt8) : List ServerFrame → GfcWs → WsOut → Prop
  | [], _, _ => True
  | frame :: frames, ws, out =>
    ∃ ret ws' out', gfcWsRecv alloc.memory ws out = some (ret, ws', out') ∧
      ws'.pending = encodeFrames frames ++ later ∧ frame.Delivered ret out' ∧
      InStep alloc later frames ws' out'

/-- The frames are received in step however `recv` cuts the stream and whatever comes later. -/
def ReceivesInStep (alloc : WsAlloc) (frames : List ServerFrame) : Prop :=
  ∀ (later : List UInt8) (ws : GfcWs) (frmType : UInt8),
    ws.pending = encodeFrames frames ++ later →
    InStep alloc later frames ws { buff := none, buffSize := 0, frmType := frmType }

/-- No frame other than text and binary has a payload, and no payload is exactly one byte longer
than the longest before it, or empty where there is none before it: `room` is one more than the
longest so far, and 0 at the start. -/
def Suited : (room : Nat) → List ServerFrame → Prop
  | _, [] => True
  | room, frame :: frames =>
    (frame.IsMessage ∨ frame.payload = []) ∧ frame.payload.length ≠ room ∧
      Suited (max room (frame.payload.length + 1)) frames

/-! ### Reading -/

section Reading

variable {ws : GfcWs} {rest : List UInt8}

theorem nextByte_cons {byte : UInt8} (ahead : ws.pending = byte :: rest) :
    ∃ ws', nextByte ws = (some byte, ws') ∧ ws'.pending = rest := by
  obtain ⟨frm, curPos, connected, socket, inside⟩ := ws
  dsimp only [GfcWs.pending] at ahead
  by_cases empty : curPos = 0 ∨ curPos = frm.length
  · have drained : (if curPos = 0 then [] else frm.drop curPos) = [] := by
      split
      · rfl
      · rcases empty with start | full
        · contradiction
        · rw [full, List.drop_length]
    rw [drained, List.nil_append] at ahead
    cases socket with
    | nil => cases ahead
    | cons chunk socket =>
      obtain ⟨first, others, bytes⟩ := List.exists_cons_of_ne_nil chunk.pos
      simp only [List.flatMap_cons, bytes, List.cons_append, List.cons.injEq] at ahead
      obtain ⟨rfl, rfl⟩ := ahead
      refine ⟨_, by rw [nextByte, dif_pos empty]; simp only [bytes, List.head_cons]; rfl, ?_⟩
      simp [GfcWs.pending]
  · obtain ⟨later, short⟩ := not_or.mp empty
    have below : curPos < frm.length := Nat.lt_of_le_of_ne inside short
    rw [if_neg later, List.drop_eq_getElem_cons below, List.cons_append, List.cons.injEq] at ahead
    obtain ⟨rfl, rfl⟩ := ahead
    refine ⟨_, by rw [nextByte, dif_neg empty]; rfl, ?_⟩
    simp [GfcWs.pending]

theorem nextByte_nil (ended : ws.pending = []) : nextByte ws = (none, ws) := by
  obtain ⟨frm, curPos, connected, socket, inside⟩ := ws
  obtain ⟨buffered, unread⟩ := List.append_eq_nil_iff.mp ended
  have empty : curPos = 0 ∨ curPos = frm.length := by
    dsimp only at buffered
    split at buffered
    · left
      assumption
    · right
      have := List.drop_eq_nil_iff.mp buffered
      omega
  cases socket with
  | nil => rw [nextByte, dif_pos empty]
  | cons chunk socket =>
    rw [List.flatMap_cons, List.append_eq_nil_iff] at unread
    exact absurd unread.1 chunk.pos

theorem byte_bind {α : Type} {byte : UInt8} (ahead : ws.pending = byte :: rest) :
    ∃ ws', ws'.pending = rest ∧
      ∀ next : UInt8 → WsReader α, (WsReader.byte >>= next) ws = next byte ws' := by
  obtain ⟨ws', read, ahead'⟩ := nextByte_cons ahead
  refine ⟨ws', ahead', fun next => ?_⟩
  simp only [bind, WsReader.byte, read]

theorem skipFrame_append {front : List UInt8} (ahead : ws.pending = front ++ rest) :
    ∃ ws', skipFrame front.length ws = (some (), ws') ∧ ws'.pending = rest := by
  induction front generalizing ws with
  | nil => exact ⟨ws, rfl, ahead⟩
  | cons byte front ih =>
    obtain ⟨ws', ahead', bind⟩ := byte_bind ahead
    obtain ⟨ws'', skipped, ahead''⟩ := ih ahead'
    exact ⟨ws'', (bind _).trans skipped, ahead''⟩

theorem receiveFrame_append {payload : List UInt8} (block : List UInt8) (i : Nat)
    (ahead : ws.pending = payload ++ rest) (room : i + payload.length ≤ block.length) :
    ∃ ws', receiveFrame payload.length i block ws =
        some (true, ws', block.take i ++ payload ++ block.drop (i + payload.length)) ∧
      ws'.pending = rest := by
  induction payload generalizing ws block i with
  | nil =>
    refine ⟨ws, ?_, ahead⟩
    simp [receiveFrame]
  | cons byte payload ih =>
    rw [List.length_cons] at room ⊢
    obtain ⟨ws', read, ahead'⟩ := nextByte_cons ahead
    have inside : i < block.length := by omega
    have still : i + 1 + payload.length ≤ (block.set i byte).length := by
      rw [List.length_set]
      omega
    obtain ⟨ws'', received, ahead''⟩ := ih (block.set i byte) (i + 1) ahead' still
    have written : (block.set i byte).take (i + 1) = block.take i ++ [byte] := by
      rw [List.take_succ_eq_append_getElem (by rwa [List.length_set]),
        List.take_set_of_le (Nat.le_refl i), List.getElem_set_self]
    refine ⟨ws'', ?_, ahead''⟩
    rw [receiveFrame, read]
    dsimp only
    rw [if_pos inside, received, written, List.drop_set_of_lt (by omega),
      List.append_assoc, List.append_assoc, List.append_assoc, List.singleton_append,
      List.cons_append, Nat.add_right_comm i 1, Nat.add_assoc i]

/-- Reading goes forward only. -/
theorem nextByte_le (ws : GfcWs) : (nextByte ws).2.pending.length ≤ ws.pending.length := by
  cases ahead : ws.pending with
  | nil => rw [nextByte_nil ahead, ahead]
  | cons byte rest =>
    obtain ⟨ws', read, ahead'⟩ := nextByte_cons ahead
    rw [read, ahead', List.length_cons]
    exact Nat.le_succ _

theorem receiveFrame_le {left i : Nat} {block block' : List UInt8} {ws' : GfcWs} {received : Bool}
    (call : receiveFrame left i block ws = some (received, ws', block')) :
    ws'.pending.length ≤ ws.pending.length := by
  induction left generalizing i block ws with
  | zero =>
    cases call
    exact Nat.le_refl _
  | succ left ih =>
    have forward := nextByte_le ws
    rw [receiveFrame] at call
    split at call <;> rename_i read <;> rw [read] at forward
    · cases call
      exact forward
    · split at call
      · exact (ih call).trans forward
      · cases call

/-- A frame with a payload takes at least the byte ahead. -/
theorem receiveFrame_lt {left i : Nat} {block block' : List UInt8} {ws' : GfcWs} {received : Bool}
    (call : receiveFrame (left + 1) i block ws = some (received, ws', block'))
    (ahead : ws.pending ≠ []) : ws'.pending.length < ws.pending.length := by
  obtain ⟨byte, rest, bytes⟩ := List.exists_cons_of_ne_nil ahead
  obtain ⟨next, read, ahead'⟩ := nextByte_cons bytes
  rw [receiveFrame, read] at call
  dsimp only at call
  split at call
  · have forward := receiveFrame_le call
    rw [ahead'] at forward
    rw [bytes, List.length_cons]
    omega
  · cases call

theorem toNat_lengthByte {n : Nat} (short : n < 126) : (UInt8.ofNat n &&& 0x7F).toNat = n := by
  refine (Bytes.toNat_mask (k := 7) _ (by decide)).trans ?_
  rw [UInt8.toNat_ofNat']
  omega

/-- A length in the byte that also has the mask bit. -/
theorem wsFrameLength_short {second : UInt8} (short : (second &&& 0x7F).toNat < 126)
    (ahead : ws.pending = second :: rest) :
    ∃ ws', wsFrameLength ws = (some (second &&& 0x7F).toUInt64, ws') ∧ ws'.pending = rest := by
  obtain ⟨ws', ahead', bind⟩ := byte_bind ahead
  have not126 : second &&& 0x7F ≠ 126 := fun same => absurd (same ▸ short) (by decide)
  have not127 : second &&& 0x7F ≠ 127 := fun same => absurd (same ▸ short) (by decide)
  refine ⟨ws', (bind _).trans ?_, ahead'⟩
  simp only [not126, not127, ↓reduceIte]
  rfl

theorem wsFrameLength_two {second byte0 byte1 : UInt8} (form : second &&& 0x7F = 126)
    (ahead : ws.pending = second :: byte0 :: byte1 :: rest) :
    ∃ length ws', wsFrameLength ws = (some length, ws') ∧
      length.toNat = BigEndian.valueFrom 0 [byte0, byte1] ∧ ws'.pending = rest := by
  obtain ⟨ws1, ahead, bind1⟩ := byte_bind ahead
  obtain ⟨ws2, ahead, bind2⟩ := byte_bind ahead
  obtain ⟨ws3, ahead, bind3⟩ := byte_bind ahead
  refine ⟨_, ws3, (bind1 _).trans ?_, BigEndian.toNat_two byte0 byte1, ahead⟩
  simp only [form, ↓reduceIte]
  exact (bind2 _).trans (bind3 _)

theorem wsFrameLength_eight {second byte0 byte1 byte2 byte3 byte4 byte5 byte6 byte7 : UInt8}
    (form : second &&& 0x7F = 127)
    (ahead : ws.pending = second :: byte0 :: byte1 :: byte2 :: byte3 :: byte4 :: byte5 :: byte6 ::
      byte7 :: rest) :
    ∃ length ws', wsFrameLength ws = (some length, ws') ∧
      length.toNat =
        BigEndian.valueFrom 0 [byte0, byte1, byte2, byte3, byte4, byte5, byte6, byte7] ∧
      ws'.pending = rest := by
  obtain ⟨ws1, ahead, bind1⟩ := byte_bind ahead
  obtain ⟨ws2, ahead, bind2⟩ := byte_bind ahead
  obtain ⟨ws3, ahead, bind3⟩ := byte_bind ahead
  obtain ⟨ws4, ahead, bind4⟩ := byte_bind ahead
  obtain ⟨ws5, ahead, bind5⟩ := byte_bind ahead
  obtain ⟨ws6, ahead, bind6⟩ := byte_bind ahead
  obtain ⟨ws7, ahead, bind7⟩ := byte_bind ahead
  obtain ⟨ws8, ahead, bind8⟩ := byte_bind ahead
  obtain ⟨ws9, ahead, bind9⟩ := byte_bind ahead
  have not126 : (127 : UInt8) ≠ 126 := by decide
  refine ⟨_, ws9, (bind1 _).trans ?_,
    BigEndian.toNat_eight byte0 byte1 byte2 byte3 byte4 byte5 byte6 byte7, ahead⟩
  simp only [form, not126, ↓reduceIte]
  exact (bind2 _).trans <| (bind3 _).trans <| (bind4 _).trans <| (bind5 _).trans <|
    (bind6 _).trans <| (bind7 _).trans <| (bind8 _).trans <| bind9 _

open ServerFrame in
theorem wsFrameLength_append {n : Nat} (small : n < 2 ^ 64)
    (ahead : ws.pending = lengthBytes n ++ rest) :
    ∃ length ws', wsFrameLength ws = (some length, ws') ∧ length.toNat = n ∧
      ws'.pending = rest := by
  unfold lengthBytes at ahead
  split at ahead
  · rename_i short
    have value := toNat_lengthByte short
    obtain ⟨ws', read, ahead'⟩ := wsFrameLength_short (by rwa [value]) ahead
    exact ⟨_, ws', read, by rw [UInt8.toNat_toUInt64, value], ahead'⟩
  · split at ahead
    · rename_i middle
      obtain ⟨length, ws', read, value, ahead'⟩ := wsFrameLength_two (by decide) ahead
      exact ⟨length, ws', read,
        value.trans (BigEndian.valueFrom_zero_digits (k := 2) middle), ahead'⟩
    · obtain ⟨length, ws', read, value, ahead'⟩ := wsFrameLength_eight (by decide) ahead
      exact ⟨length, ws', read,
        value.trans (BigEndian.valueFrom_zero_digits (k := 8) small), ahead'⟩

end Reading

/-! ### A frame at a time -/

/-- The caller's size is that of the block, which is not released. -/
structure WsOut.Sized (out : WsOut) (room : Nat) : Prop where
  block : (out.buff.getD []).length = room
  size : out.buffSize.toNat = room
  intact : out.released = false

section Frame

variable {memory : WsMemory} {ws : GfcWs} {out : WsOut} {frame : ServerFrame} {room : Nat}
  {rest : List UInt8}

theorem frameLength_succ {length : UInt64} (is_length : length.toNat = frame.payload.length) :
    (length + 1).toNat = frame.payload.length + 1 := by
  have short := frame.short
  rw [UInt64.toNat_add, is_length, UInt64.toNat_one]
  omega

/-- The size of the block that is allocated. -/
theorem allocate_length {out' : WsOut} {length : UInt64} (intact : out.released = false)
    (allocated : out.allocate memory length = some out') (larger : out.buffSize < length) :
    out'.Sized (length + 1).toNat := by
  rw [WsOut.allocate, if_pos larger] at allocated
  obtain ⟨block, at_block, rfl⟩ := Option.map_eq_some_iff.mp allocated
  refine ⟨?_, rfl, intact⟩
  cases buff : out.buff with
  | none =>
    rw [buff] at at_block
    exact memory.malloc_length _ _ at_block
  | some old =>
    rw [buff] at at_block
    exact memory.realloc_length _ _ _ at_block

theorem allocate_total (alloc : WsAlloc) (out : WsOut) (length : UInt64) :
    ∃ out', out.allocate alloc.memory length = some out' := by
  unfold WsOut.allocate
  split
  · cases out.buff <;> exact ⟨_, rfl⟩
  · exact ⟨out, rfl⟩

theorem allocate_sized (alloc : WsAlloc) {length : UInt64} (sized : out.Sized room)
    (is_length : length.toNat = frame.payload.length) (fresh : frame.payload.length ≠ room) :
    ∃ out', out.allocate alloc.memory length = some out' ∧
      out'.Sized (max room (frame.payload.length + 1)) := by
  by_cases larger : out.buffSize < length
  · obtain ⟨out', allocated⟩ := allocate_total alloc out length
    refine ⟨out', allocated, ?_⟩
    have grown := allocate_length sized.intact allocated larger
    rw [UInt64.lt_iff_toNat_lt, is_length, sized.size] at larger
    rwa [Nat.max_eq_right (by omega), ← frameLength_succ is_length]
  · refine ⟨out, if_neg larger, ?_⟩
    rw [UInt64.lt_iff_toNat_lt, is_length, sized.size] at larger
    rwa [Nat.max_eq_left (by omega)]

/-- The block stays too small by a byte, or is not there. -/
theorem allocate_same {length : UInt64} (sized : out.Sized room)
    (is_length : length.toNat = frame.payload.length) (full : frame.payload.length = room) :
    out.allocate memory length = some out := by
  unfold WsOut.allocate
  rw [if_neg]
  rw [UInt64.lt_iff_toNat_lt, is_length, sized.size, full]
  exact Nat.lt_irrefl _

theorem encode_append (frame : ServerFrame) (rest : List UInt8) :
    frame.encode ++ rest = frame.first ::
      (ServerFrame.lengthBytes frame.payload.length ++ (frame.payload ++ rest)) := by
  rw [ServerFrame.encode, List.cons_append, List.append_assoc]

theorem gfcWsRecv_header (ahead : ws.pending = frame.encode ++ rest) :
    ∃ (length : UInt64) (ws' : GfcWs), length.toNat = frame.payload.length ∧
      ws'.pending = frame.payload ++ rest ∧
      gfcWsRecv memory ws out = gfcWsPayload memory frame.opcode length ws' out := by
  rw [encode_append] at ahead
  obtain ⟨ws1, first, ahead⟩ := nextByte_cons ahead
  have small : frame.payload.length < 2 ^ 64 := Nat.lt_trans frame.short (by decide)
  obtain ⟨length, ws2, header, is_length, ahead⟩ := wsFrameLength_append small ahead
  refine ⟨length, ws2, is_length, ahead, ?_⟩
  rw [gfcWsRecv, first]
  simp only [frame.not_close, ↓reduceIte, header]
  rfl

variable {length : UInt64}

theorem unskipped (is_length : length.toNat = frame.payload.length)
    (plain : frame.IsMessage ∨ frame.payload = []) :
    (if frame.opcode ≠ frmTxt ∧ frame.opcode ≠ frmBin then skipFrame length.toNat ws
      else (some (), ws)) = (some (), ws) := by
  split <;> rename_i type
  · rcases plain with message | no_payload
    · exact absurd message (not_or.mpr type)
    · rw [is_length, no_payload]
      rfl
  · rfl

/-- The block with the bytes of the frame, before its end is marked. -/
theorem receiveFrame_payload (block : List UInt8)
    (is_length : length.toNat = frame.payload.length) (ahead : ws.pending = frame.payload ++ rest)
    (fits : frame.payload.length ≤ block.length) :
    ∃ ws', receiveFrame length.toNat 0 block ws =
        some (true, ws', frame.payload ++ block.drop frame.payload.length) ∧
      ws'.pending = rest := by
  obtain ⟨ws', received, ahead'⟩ := receiveFrame_append block 0 ahead (by omega)
  rw [List.take_zero, List.nil_append, Nat.zero_add, ← is_length] at received
  exact ⟨ws', is_length ▸ received, ahead'⟩

theorem gfcWsPayload_suited (alloc : WsAlloc) (is_length : length.toNat = frame.payload.length)
    (ahead : ws.pending = frame.payload ++ rest) (plain : frame.IsMessage ∨ frame.payload = [])
    (sized : out.Sized room) (fresh : frame.payload.length ≠ room) :
    ∃ ws' out' block,
      gfcWsPayload alloc.memory frame.opcode length ws out = some (0, ws', out') ∧
      ws'.pending = rest ∧ out'.frmType = frame.opcode ∧ out'.buff = some block ∧
      frame.payload ++ [0] <+: block ∧ out'.Sized (max room (frame.payload.length + 1)) := by
  obtain ⟨out', allocated, block_length, size, intact⟩ := allocate_sized alloc sized is_length fresh
  generalize block_eq : out'.buff.getD [] = block at block_length
  have larger : frame.payload.length < block.length := by omega
  obtain ⟨ws', received, ahead'⟩ := receiveFrame_payload block is_length ahead larger.le
  obtain ⟨old, left, behind⟩ : ∃ old left, block.drop frame.payload.length = old :: left :=
    List.exists_cons_of_ne_nil (by rw [Ne, List.drop_eq_nil_iff]; omega)
  have marked : (frame.payload ++ old :: left).set length.toNat 0 = frame.payload ++ 0 :: left := by
    rw [is_length, List.set_append_right _ _ (Nat.le_refl _), Nat.sub_self, List.set_cons_zero]
  have whole : (frame.payload ++ old :: left).length = block.length := by
    rw [← behind, List.length_append, List.length_drop]
    omega
  refine ⟨ws', { out' with
      buff := some (frame.payload ++ 0 :: left)
      frmType := frame.opcode }, _, ?_, ahead', rfl, rfl, ?_, ?_, size, intact⟩
  · rw [gfcWsPayload, unskipped is_length plain]
    simp only [sized.intact, Bool.false_eq_true, false_and, allocated, block_eq, received, behind,
      marked, whole, is_length ▸ larger, ↓reduceIte]
  · exact ⟨left, by simp⟩
  · rw [Option.getD_some, ← block_length, ← whole]
    simp

/-- A frame that fills the block leaves no room for the mark of its end. -/
theorem gfcWsPayload_full (is_length : length.toNat = frame.payload.length)
    (ahead : ws.pending = frame.payload ++ rest) (plain : frame.IsMessage ∨ frame.payload = [])
    (sized : out.Sized room) (full : frame.payload.length = room) :
    gfcWsPayload memory frame.opcode length ws out = none := by
  have filled : (out.buff.getD []).length = frame.payload.length := sized.block.trans full.symm
  obtain ⟨ws', received, -⟩ := receiveFrame_payload (out.buff.getD []) is_length ahead filled.ge
  rw [List.drop_eq_nil_of_le filled.le, List.append_nil] at received
  rw [gfcWsPayload, unskipped is_length plain]
  simp only [sized.intact, Bool.false_eq_true, false_and, ↓reduceIte,
    allocate_same sized is_length full, received]
  exact if_neg (Nat.not_lt.mpr is_length.ge)

/-- A frame that is skipped is received once more, from the bytes behind it. -/
theorem gfcWsPayload_skipped (alloc : WsAlloc) (is_length : length.toNat = frame.payload.length)
    (ahead : ws.pending = frame.payload ++ rest) (skipped : ¬frame.IsMessage)
    (filled : frame.payload ≠ []) (later : rest ≠ []) {ret : Int} {ws' : GfcWs} {out' : WsOut}
    (call : gfcWsPayload alloc.memory frame.opcode length ws out = some (ret, ws', out')) :
    ws'.pending ≠ rest := by
  obtain ⟨ws'', skip, ahead'⟩ := skipFrame_append ahead
  obtain ⟨byte, payload, bytes⟩ := List.exists_cons_of_ne_nil filled
  have succ : length.toNat = payload.length + 1 := by rw [is_length, bytes, List.length_cons]
  rw [← is_length] at skip
  obtain ⟨allocated, at_memory⟩ := allocate_total alloc out length
  rw [gfcWsPayload, if_pos (not_or.mp skipped), skip] at call
  simp only [at_memory, succ] at call
  intro same
  have forward : ws'.pending.length < ws''.pending.length := by
    split at call
    · cases call
    split at call
    · cases call
    · rename_i received
      cases call
      exact receiveFrame_lt received (ahead' ▸ later)
    · rename_i received
      split at call
      · cases call
        exact receiveFrame_lt received (ahead' ▸ later)
      · cases call
  rw [ahead', same] at forward
  exact Nat.lt_irrefl _ forward

end Frame

/-! ### Frames in turn -/

section Turn

variable {alloc : WsAlloc} {later : List UInt8} {ws : GfcWs} {out : WsOut} {room : Nat}
  {frames : List ServerFrame}

theorem encodeFrames_cons (frame : ServerFrame) (frames : List ServerFrame) (later : List UInt8) :
    encodeFrames (frame :: frames) ++ later = frame.encode ++ (encodeFrames frames ++ later) := by
  rw [encodeFrames, List.flatMap_cons, List.append_assoc]
  rfl

theorem inStep_of_suited (ahead : ws.pending = encodeFrames frames ++ later)
    (sized : out.Sized room) (suited : Suited room frames) : InStep alloc later frames ws out := by
  induction frames generalizing ws out room with
  | nil => trivial
  | cons frame frames ih =>
    obtain ⟨plain, fresh, suited⟩ := suited
    rw [encodeFrames_cons] at ahead
    obtain ⟨length, behind, is_length, payload, header⟩ := gfcWsRecv_header ahead
    obtain ⟨ws', out', block, call, ahead', type, buff, delivered, sized'⟩ :=
      gfcWsPayload_suited alloc is_length payload plain sized fresh
    refine ⟨0, ws', out', header.trans call, ahead', ?_, ih ahead' sized' suited⟩
    unfold ServerFrame.Delivered
    split <;> rename_i message
    · exact ⟨rfl, type, block, buff, delivered⟩
    · rw [type]
      exact fun _ => not_or.mp message

theorem suited_of_inStep (more : later ≠ []) (ahead : ws.pending = encodeFrames frames ++ later)
    (sized : out.Sized room) (in_step : InStep alloc later frames ws out) :
    Suited room frames := by
  induction frames generalizing ws out room with
  | nil => trivial
  | cons frame frames ih =>
    obtain ⟨ret, ws', out', call, ahead', -, in_step⟩ := in_step
    rw [encodeFrames_cons] at ahead
    obtain ⟨length, behind, is_length, payload, header⟩ := gfcWsRecv_header ahead
    rw [header] at call
    have plain : frame.IsMessage ∨ frame.payload = [] := by
      by_contra neither
      rw [not_or] at neither
      exact gfcWsPayload_skipped alloc is_length payload neither.1 neither.2
        (List.append_ne_nil_of_right_ne_nil _ more) call ahead'
    have fresh : frame.payload.length ≠ room := by
      intro full
      rw [gfcWsPayload_full is_length payload plain sized full] at call
      cases call
    obtain ⟨ws'', out'', block, suited_call, -, -, -, -, sized'⟩ :=
      gfcWsPayload_suited alloc is_length payload plain sized fresh
    rw [suited_call] at call
    cases call
    exact ⟨plain, fresh, ih ahead' sized' in_step⟩

/-- A stream that `recv` gives a byte at a time. -/
def GfcWs.ofBytes (bytes : List UInt8) : GfcWs where
  frm := []
  curPos := 0
  connected := true
  socket := bytes.map fun byte => ⟨[byte], nofun, (by decide : 1 ≤ messageLength)⟩
  inside := Nat.le_refl 0

theorem pending_ofBytes (bytes : List UInt8) : (GfcWs.ofBytes bytes).pending = bytes := by
  simp [GfcWs.pending, GfcWs.ofBytes, List.flatMap_map]

theorem suited_of_receivesInStep (in_step : ReceivesInStep alloc frames) : Suited 0 frames :=
  suited_of_inStep (List.cons_ne_nil 0 []) (pending_ofBytes _) ⟨rfl, rfl, rfl⟩
    (in_step [0] _ 0 (pending_ofBytes _))

/-- The frames are received in step exactly where none but text and binary frames have a payload,
the first has one, and none is one byte longer than the longest before it. -/
theorem receivesInStep_iff (alloc : WsAlloc) (frames : List ServerFrame) :
    ReceivesInStep alloc frames ↔ Suited 0 frames :=
  ⟨suited_of_receivesInStep, fun suited _ _ _ ahead =>
    inStep_of_suited ahead ⟨rfl, rfl, rfl⟩ suited⟩

end Turn

/-- Blocks whose bytes are 0 where they are new. -/
def zeroAlloc : WsAlloc where
  malloc size := List.replicate size 0
  realloc block size := (block ++ List.replicate size 0).take size
  malloc_length _ := List.length_replicate
  realloc_length block size := by simp

/-- A ping that carries a byte, between two messages. -/
def pingFrames : List ServerFrame :=
  [⟨0x81, [104, 105], by decide, by decide⟩, ⟨0x89, [112], by decide, by decide⟩,
    ⟨0x81, [104], by decide, by decide⟩]

/-- The call that reads the ping takes the first byte of the message behind it, too. -/
theorem receivesInStep_fails :
    ¬∀ (alloc : WsAlloc) (frames : List ServerFrame), ReceivesInStep alloc frames := by
  intro every
  obtain ⟨-, -, plain, -⟩ := suited_of_receivesInStep (every zeroAlloc pingFrames)
  rcases plain with message | no_payload
  · revert message
    decide
  · cases no_payload

end Guardwatch
