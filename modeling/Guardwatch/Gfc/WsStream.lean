import Guardwatch.Gfc.Ws

/-! `gfc_ws_recv` over a plain stream of bytes, and that `next_byte`, with its buffer and the
refills by `recv`, reads nothing but that stream. -/

namespace Guardwatch

/-- A reader of the bytes of a stream; `none` where they come to an end. -/
abbrev StreamReader (α : Type) := StateT (List UInt8) Option α

def streamByte : StreamReader UInt8
  | [] => none
  | byte :: rest => some (byte, rest)

def streamSkip : Nat → StreamReader Unit
  | 0 => pure ()
  | size + 1 => do
    let _ ← streamByte
    streamSkip size

def streamLength : StreamReader UInt64 := do
  let length := (← streamByte) &&& 0x7F
  if length = 126 then
    let high ← streamByte
    let low ← streamByte
    return high.toUInt64 <<< 8 ||| low.toUInt64
  else if length = 127 then
    let byte2 ← streamByte
    let byte3 ← streamByte
    let byte4 ← streamByte
    let byte5 ← streamByte
    let byte6 ← streamByte
    let byte7 ← streamByte
    let byte8 ← streamByte
    let byte9 ← streamByte
    return byte2.toUInt64 <<< 56 ||| byte3.toUInt64 <<< 48 ||| byte4.toUInt64 <<< 40 |||
      byte5.toUInt64 <<< 32 ||| byte6.toUInt64 <<< 24 ||| byte7.toUInt64 <<< 16 |||
      byte8.toUInt64 <<< 8 ||| byte9.toUInt64
  else return length.toUInt64

/-- The bytes of the payload that are there: whether they are all, the stream behind them and the
block with them. -/
def streamReceive : (left : Nat) → (i : Nat) → (block : List UInt8) → List UInt8 →
    Option (Bool × List UInt8 × List UInt8)
  | 0, _, block, bytes => some (true, bytes, block)
  | _ + 1, _, block, [] => some (false, [], block)
  | left + 1, i, block, byte :: bytes =>
    if i < block.length then streamReceive left (i + 1) (block.set i byte) bytes else none

/-- What a call comes to: it returns, with the variables that it leaves to its caller, or returns
-1 and has closed the connection. Both have the stream behind the call. -/
inductive StreamCall
  | returned (ret : Int) (out : WsOut) (rest : List UInt8)
  | closed (out : WsOut) (rest : List UInt8)

def StreamCall.out : StreamCall → WsOut
  | .returned _ out _ => out
  | .closed out _ => out

/-- The bytes behind the header, without the payload of a frame that is skipped. -/
def streamSkipped (opcode : UInt8) (frameLength : UInt64) : StreamReader Unit :=
  if opcode ≠ frmTxt ∧ opcode ≠ frmBin then streamSkip frameLength.toNat else pure ()

def streamPayload (memory : WsMemory) (opcode : UInt8) (frameLength : UInt64)
    (bytes : List UInt8) (out : WsOut) : Option StreamCall :=
  match streamSkipped opcode frameLength bytes with
  | none => some (.returned (-1) out [])
  | some ((), bytes) =>
    if out.released ∧ out.buffSize < frameLength then none
    else match out.allocate memory frameLength with
    | none => some (.returned (-1) (out.refused frameLength) bytes)
    | some out =>
      match streamReceive frameLength.toNat 0 (out.buff.getD []) bytes with
      | none => none
      | some (false, bytes, block) =>
        some (.returned 1 { out with buff := out.buff.map fun _ => block } bytes)
      | some (true, bytes, block) =>
        if frameLength.toNat < block.length then
          some (.returned 0 { out with
            buff := some (block.set frameLength.toNat 0)
            frmType := opcode } bytes)
        else none

def streamRecv (memory : WsMemory) (bytes : List UInt8) (out : WsOut) : Option StreamCall :=
  match bytes with
  | [] => some (.closed out [])
  | curByte :: bytes =>
    let opcode := curByte &&& 0xF
    if opcode = frmClse then some (.closed out bytes)
    else
      match streamLength bytes with
      | none => some (.returned 1 out [])
      | some (frameLength, bytes) => streamPayload memory opcode frameLength bytes out

/-! ### Readers -/

/-- The buffered reading came to the same end as the one of the stream. -/
inductive Follows {α : Type} (ws : GfcWs) : Option (α × List UInt8) → Option α × GfcWs → Prop
  | read (a : α) (rest : List UInt8) (ws' : GfcWs) (ahead : ws'.pending = rest)
      (status : ws'.connected = ws.connected) : Follows ws (some (a, rest)) (some a, ws')
  | ended (ws' : GfcWs) (drained : ws'.pending = []) (status : ws'.connected = ws.connected) :
      Follows ws none (none, ws')

/-- The buffered reader reads what the other one reads from the stream. -/
def Simulates {α : Type} (reader : WsReader α) (stream : StreamReader α) : Prop :=
  ∀ ws, Follows ws (stream ws.pending) (reader ws)

section Readers

variable {α β : Type} {ws : GfcWs}

theorem nextByte_connected (ws : GfcWs) : (nextByte ws).2.connected = ws.connected := by
  obtain ⟨frm, curPos, connected, socket, inside⟩ := ws
  unfold nextByte
  split
  · cases socket <;> rfl
  · rfl

theorem simulates_pure (a : α) : Simulates (pure a : WsReader α) (pure a) :=
  fun ws => .read a ws.pending ws rfl rfl

theorem simulates_bind {reader : WsReader α} {stream : StreamReader α} {next : α → WsReader β}
    {next' : α → StreamReader β} (first : Simulates reader stream)
    (rest : ∀ a, Simulates (next a) (next' a)) :
    Simulates (reader >>= next) (stream >>= next') := by
  intro ws
  have follows := first ws
  simp only [bind, StateT.bind]
  generalize stream ws.pending = streamed at follows ⊢
  generalize reader ws = read at follows ⊢
  cases follows with
  | read a rest_ahead ws' ahead status =>
    subst ahead
    have later := rest a ws'
    dsimp only [Option.bind_some]
    generalize next' a ws'.pending = streamed at later ⊢
    generalize next a ws' = read at later ⊢
    cases later with
    | read b rest ws'' ahead status' => exact .read b rest ws'' ahead (status'.trans status)
    | ended ws'' drained status' => exact .ended ws'' drained (status'.trans status)
  | ended ws' drained status => exact .ended ws' drained status

theorem simulates_byte : Simulates WsReader.byte streamByte := by
  intro ws
  have status := nextByte_connected ws
  unfold WsReader.byte
  cases ahead : ws.pending with
  | nil =>
    rw [nextByte_nil ahead]
    exact .ended ws ahead rfl
  | cons byte rest =>
    obtain ⟨ws', read, ahead'⟩ := nextByte_cons ahead
    rw [read] at status ⊢
    exact .read byte rest ws' ahead' status

theorem simulates_skip (size : Nat) : Simulates (skipFrame size) (streamSkip size) := by
  induction size with
  | zero => exact simulates_pure ()
  | succ size ih => exact simulates_bind simulates_byte fun _ => ih

theorem simulates_length : Simulates wsFrameLength streamLength := by
  refine simulates_bind simulates_byte fun second => ?_
  dsimp only
  by_cases form126 : second &&& 0x7F = 126
  · rw [if_pos form126, if_pos form126]
    exact simulates_bind simulates_byte fun _ => simulates_bind simulates_byte fun _ =>
      simulates_pure _
  rw [if_neg form126, if_neg form126]
  by_cases form127 : second &&& 0x7F = 127
  · rw [if_pos form127, if_pos form127]
    exact simulates_bind simulates_byte fun _ => simulates_bind simulates_byte fun _ =>
      simulates_bind simulates_byte fun _ => simulates_bind simulates_byte fun _ =>
      simulates_bind simulates_byte fun _ => simulates_bind simulates_byte fun _ =>
      simulates_bind simulates_byte fun _ => simulates_bind simulates_byte fun _ =>
      simulates_pure _
  · rw [if_neg form127, if_neg form127]
    exact simulates_pure _

theorem simulates_skipped (opcode : UInt8) (frameLength : UInt64) :
    Simulates
      (fun ws => if opcode ≠ frmTxt ∧ opcode ≠ frmBin then skipFrame frameLength.toNat ws
        else (some (), ws))
      (streamSkipped opcode frameLength) := by
  unfold streamSkipped
  by_cases skipped : opcode ≠ frmTxt ∧ opcode ≠ frmBin
  · simp only [if_pos skipped]
    exact simulates_skip frameLength.toNat
  · simp only [if_neg skipped]
    exact simulates_pure ()

end Readers

/-! ### Calls -/

/-- The buffered call came to what the one on the stream comes to. -/
inductive CallFollows (ws : GfcWs) : Option StreamCall → Option (Int × GfcWs × WsOut) → Prop
  | outside : CallFollows ws none none
  | returned (ret : Int) (out : WsOut) (rest : List UInt8) (ws' : GfcWs)
      (ahead : ws'.pending = rest) (status : ws'.connected = ws.connected) :
      CallFollows ws (some (.returned ret out rest)) (some (ret, ws', out))
  | closed (out : WsOut) (rest : List UInt8) (ws' : GfcWs) (ahead : ws'.pending = rest)
      (status : ws'.connected = ws.connected) :
      CallFollows ws (some (.closed out rest)) (some (-1, gfcWsClose ws', out))

section Calls

variable {ws : GfcWs}

/-- The loop that receives the frame. -/
inductive ReceiveFollows (ws : GfcWs) : Option (Bool × List UInt8 × List UInt8) →
    Option (Bool × GfcWs × List UInt8) → Prop
  | outside : ReceiveFollows ws none none
  | received (done : Bool) (rest block : List UInt8) (ws' : GfcWs) (ahead : ws'.pending = rest)
      (status : ws'.connected = ws.connected) :
      ReceiveFollows ws (some (done, rest, block)) (some (done, ws', block))

theorem receiveFrame_follows (left i : Nat) (block : List UInt8) (ws : GfcWs) :
    ReceiveFollows ws (streamReceive left i block ws.pending) (receiveFrame left i block ws) := by
  induction left generalizing i block ws with
  | zero => exact .received true ws.pending block ws rfl rfl
  | succ left ih =>
    have status := nextByte_connected ws
    cases ahead : ws.pending with
    | nil =>
      rw [receiveFrame, nextByte_nil ahead]
      exact .received false [] block ws ahead rfl
    | cons byte rest =>
      obtain ⟨ws', read, rfl⟩ := nextByte_cons ahead
      rw [read] at status
      rw [receiveFrame, read, streamReceive]
      dsimp only
      split
      · have later := ih (i + 1) (block.set i byte) ws'
        generalize streamReceive left (i + 1) (block.set i byte) ws'.pending = streamed at later ⊢
        generalize receiveFrame left (i + 1) (block.set i byte) ws' = received at later ⊢
        cases later with
        | outside => exact .outside
        | received done rest block ws'' ahead status' =>
          exact .received done rest block ws'' ahead (status'.trans status)
      · exact .outside

theorem gfcWsPayload_follows (memory : WsMemory) (opcode : UInt8) (frameLength : UInt64)
    (ws : GfcWs) (out : WsOut) :
    CallFollows ws (streamPayload memory opcode frameLength ws.pending out)
      (gfcWsPayload memory opcode frameLength ws out) := by
  have skipped := simulates_skipped opcode frameLength ws
  dsimp only at skipped
  unfold streamPayload gfcWsPayload
  generalize streamSkipped opcode frameLength ws.pending = streamed at skipped ⊢
  generalize (if opcode ≠ frmTxt ∧ opcode ≠ frmBin then skipFrame frameLength.toNat ws
    else (some (), ws)) = read at skipped ⊢
  cases skipped with
  | ended ws' drained status => exact .returned (-1) out [] ws' drained status
  | read _ rest ws' ahead status =>
    subst ahead
    dsimp only
    by_cases dangling : out.released ∧ out.buffSize < frameLength
    · rw [if_pos dangling, if_pos dangling]
      exact .outside
    rw [if_neg dangling, if_neg dangling]
    cases out.allocate memory frameLength with
    | none => exact .returned (-1) (out.refused frameLength) ws'.pending ws' rfl status
    | some out =>
      have receives := receiveFrame_follows frameLength.toNat 0 (out.buff.getD []) ws'
      dsimp only
      generalize streamReceive frameLength.toNat 0 (out.buff.getD []) ws'.pending = streamed
        at receives ⊢
      generalize receiveFrame frameLength.toNat 0 (out.buff.getD []) ws' = received
        at receives ⊢
      cases receives with
      | outside => exact .outside
      | received done rest block ws'' ahead status' =>
        cases done with
        | false => exact .returned 1 _ rest ws'' ahead (status'.trans status)
        | true =>
          dsimp only
          split
          · exact .returned 0 _ rest ws'' ahead (status'.trans status)
          · exact .outside

/-- A call reads the stream, however it is cut. -/
theorem gfcWsRecv_follows (memory : WsMemory) (ws : GfcWs) (out : WsOut) :
    CallFollows ws (streamRecv memory ws.pending out) (gfcWsRecv memory ws out) := by
  have status := nextByte_connected ws
  unfold streamRecv gfcWsRecv
  cases ahead : ws.pending with
  | nil =>
    rw [nextByte_nil ahead]
    exact .closed out [] ws ahead rfl
  | cons curByte rest =>
    obtain ⟨ws', read, rfl⟩ := nextByte_cons ahead
    rw [read] at status ⊢
    dsimp only at status ⊢
    split
    · exact .closed out ws'.pending ws' rfl status
    · have header := simulates_length ws'
      generalize streamLength ws'.pending = streamed at header ⊢
      generalize wsFrameLength ws' = read at header ⊢
      cases header with
      | ended ws'' drained status' => exact .returned 1 out [] ws'' drained (status'.trans status)
      | read frameLength rest ws'' ahead status' =>
        subst ahead
        have payload := gfcWsPayload_follows memory (curByte &&& 0xF) frameLength ws'' out
        dsimp only
        generalize streamPayload memory (curByte &&& 0xF) frameLength ws''.pending out = streamed
          at payload ⊢
        generalize gfcWsPayload memory (curByte &&& 0xF) frameLength ws'' out = call at payload ⊢
        cases payload with
        | outside => exact .outside
        | returned ret out rest last ahead status'' =>
          exact .returned ret out rest last ahead (status''.trans (status'.trans status))
        | closed out rest last ahead status'' =>
          exact .closed out rest last ahead (status''.trans (status'.trans status))

end Calls

/-! ### Repeated calls -/

/-- The results of repeated calls, one for each of the given states of the memory. After a call that
writes outside the block there is no further one. -/
def recvCalls : List WsMemory → GfcWs → WsOut → List (Option (Int × WsOut))
  | [], _, _ => []
  | memory :: later, ws, out =>
    match gfcWsRecv memory ws out with
    | none => [none]
    | some (ret, ws', out') => some (ret, out') :: recvCalls later ws' out'

/-- The results up to the first call that closes the connection. -/
def recvUntilClosed : List WsMemory → GfcWs → WsOut → List (Option (Int × WsOut))
  | [], _, _ => []
  | memory :: later, ws, out =>
    match gfcWsRecv memory ws out with
    | none => [none]
    | some (ret, ws', out') =>
      some (ret, out') ::
        if ws.connected ∧ ¬ws'.connected then [] else recvUntilClosed later ws' out'

/-- Two contexts with the same bytes ahead give the same results, wherever `recv` has cut and will
cut the stream, up to and with the call that closes the connection. -/
theorem recvUntilClosed_eq (memories : List WsMemory) (ws₁ ws₂ : GfcWs) (out : WsOut)
    (ahead : ws₁.pending = ws₂.pending) (status : ws₁.connected = ws₂.connected) :
    recvUntilClosed memories ws₁ out = recvUntilClosed memories ws₂ out := by
  induction memories generalizing ws₁ ws₂ out with
  | nil => rfl
  | cons memory later ih =>
    have call₁ := gfcWsRecv_follows memory ws₁ out
    have call₂ := gfcWsRecv_follows memory ws₂ out
    rw [ahead] at call₁
    rw [recvUntilClosed, recvUntilClosed]
    generalize streamRecv memory ws₂.pending out = call at call₁ call₂
    generalize gfcWsRecv memory ws₁ out = result₁ at call₁ ⊢
    generalize gfcWsRecv memory ws₂ out = result₂ at call₂ ⊢
    cases call₁ with
    | outside =>
      cases call₂
      rfl
    | returned ret out rest ws₁' ahead₁ status₁ =>
      obtain _ | ⟨_, _, _, ws₂', ahead₂, status₂⟩ := call₂
      dsimp only
      rw [if_neg (by simp [status₁]), if_neg (by simp [status₂])]
      congr 1
      exact ih ws₁' ws₂' out (ahead₁.trans ahead₂.symm)
        (status₁.trans (status.trans status₂.symm))
    | closed out rest ws₁' ahead₁ status₁ =>
      obtain _ | _ | ⟨_, _, ws₂', ahead₂, status₂⟩ := call₂
      dsimp only
      unfold gfcWsClose
      rw [status₁, status₂, ← status]
      cases connected : ws₁.connected with
      | true => rfl
      | false =>
        simp only [Bool.false_eq_true, false_and, ↓reduceIte]
        congr 1
        exact ih ws₁' ws₂' out (ahead₁.trans ahead₂.symm)
          (status₁.trans (status.trans status₂.symm))

/-- A context at the end of what the handshake has read. -/
def afterHandshake (socket : List WsChunk) : GfcWs where
  frm := [13, 10, 13, 10]
  curPos := 4
  connected := true
  socket := socket
  inside := by decide

def noBuffer : WsOut := { buff := none, buffSize := 0, frmType := 0 }

/-- Two messages, the second with a length of two bytes, and a close frame, in one chunk. -/
def messagesWhole : GfcWs :=
  afterHandshake [⟨[0x81, 3, 121, 101, 115, 0x82, 126, 0, 2, 104, 105, 0x88], by decide, by decide⟩]

/-- The same bytes, cut inside both headers and both payloads. -/
def messagesCut : GfcWs :=
  afterHandshake [⟨[0x81], by decide, by decide⟩, ⟨[3, 121], by decide, by decide⟩,
    ⟨[101, 115, 0x82, 126, 0], by decide, by decide⟩, ⟨[2, 104], by decide, by decide⟩,
    ⟨[105, 0x88], by decide, by decide⟩]

theorem recvUntilClosed_eq_cut :
    recvUntilClosed (List.replicate 3 zeroAlloc.memory) messagesWhole noBuffer =
      recvUntilClosed (List.replicate 3 zeroAlloc.memory) messagesCut noBuffer :=
  recvUntilClosed_eq _ messagesWhole messagesCut noBuffer (by decide) rfl

/-- A close frame and a message behind it, in one chunk. -/
def closeWhole : GfcWs :=
  afterHandshake [⟨[0x88, 0x81, 1, 65], by decide, by decide⟩]

/-- The same bytes, the message in a chunk of its own. -/
def closeCut : GfcWs :=
  afterHandshake [⟨[0x88], by decide, by decide⟩, ⟨[0x81, 1, 65], by decide, by decide⟩]

/-- The message behind the close frame is read where it is in the buffer already, and not where it
would have to come from the closed socket. -/
theorem recvCalls_fails :
    ¬∀ (memories : List WsMemory) (ws₁ ws₂ : GfcWs) (out : WsOut), 0 < ws₁.curPos →
      0 < ws₂.curPos → ws₁.connected = ws₂.connected → ws₁.pending = ws₂.pending →
        recvCalls memories ws₁ out = recvCalls memories ws₂ out := by
  intro every
  have same := every [zeroAlloc.memory, zeroAlloc.memory] closeWhole closeCut noBuffer (by decide)
    (by decide) rfl (by decide)
  have returns := congrArg (List.map (Option.map Prod.fst)) same
  revert returns
  decide +kernel

end Guardwatch
