import Guardwatch.Gfc.Ws

/-! The frames that `gfc_ws_send` writes, and how the header part of `gfc_ws_recv` reads their
headers. -/

namespace Guardwatch

def frmFin : UInt8 := 128
def frmMsk : UInt8 := 128

/-- The bytes of `frame`, and `hdr_len`. -/
def sendFrame (length : UInt64) (type : UInt8) : List UInt8 × Nat :=
  if length ≤ 125 then
    ([frmFin ||| type, frmMsk ||| (length &&& 0x7F).toUInt8, 0, 0, 0, 0, 0, 0, 0, 0], 2)
  else if length ≥ 126 ∧ length ≤ 65535 then
    ([frmFin ||| type, frmMsk ||| 126, ((length >>> 8) &&& 255).toUInt8, (length &&& 255).toUInt8,
      0, 0, 0, 0, 0, 0], 4)
  else
    ([frmFin ||| type, frmMsk ||| 127, ((length >>> 56) &&& 255).toUInt8,
      ((length >>> 48) &&& 255).toUInt8, ((length >>> 40) &&& 255).toUInt8,
      ((length >>> 32) &&& 255).toUInt8, ((length >>> 24) &&& 255).toUInt8,
      ((length >>> 16) &&& 255).toUInt8, ((length >>> 8) &&& 255).toUInt8,
      (length &&& 255).toUInt8], 10)

def masks : List UInt8 := [0xAA, 0xAA, 0xAA, 0xAA]

/-- The loop that masks the message, from byte `count` on. -/
def maskFrom : (count : Nat) → List UInt8 → List UInt8
  | _, [] => []
  | count, byte :: rest => (byte ^^^ masks.getD (count % 4) 0) :: maskFrom (count + 1) rest

/-- Which of the three calls of `send` fail, and whether there is no memory for the copy of the
message. -/
structure SendFaults where
  header : Bool
  masks : Bool
  memory : Bool
  message : Bool

def noFaults : SendFaults := { header := false, masks := false, memory := false, message := false }

/-- `gfc_ws_send`: what it returns, and what each successful `send` has sent. -/
def gfcWsSend (faults : SendFaults) (msg : List UInt8) (type : UInt8) : Int × List (List UInt8) :=
  let (frame, hdrLen) := sendFrame (UInt64.ofNat msg.length) type
  let header := frame.take hdrLen
  if faults.header then (-1, [])
  else if faults.masks then (-2, [header])
  else if faults.memory then (-3, [header, masks])
  else if faults.message then (-4, [header, masks])
  else (0, [header, masks, maskFrom 0 msg])

/-- The header part of `gfc_ws_recv`: the opcode and the length, and `none` where it returns before
it has the length. -/
def wsHeader (ws : GfcWs) : Option (UInt8 × UInt64) × GfcWs :=
  match nextByte ws with
  | (none, ws) => (none, ws)
  | (some curByte, ws) =>
    let opcode := curByte &&& 0xF
    if opcode = frmClse then (none, ws)
    else
      match wsFrameLength ws with
      | (none, ws) => (none, ws)
      | (some frameLength, ws) => (some (opcode, frameLength), ws)

theorem gfcWsRecv_of_wsHeader {memory : WsMemory} {ws ws' : GfcWs} {out : WsOut} {opcode : UInt8}
    {frameLength : UInt64} (header : wsHeader ws = (some (opcode, frameLength), ws')) :
    gfcWsRecv memory ws out = gfcWsPayload memory opcode frameLength ws' out := by
  unfold wsHeader at header
  unfold gfcWsRecv
  rcases first : nextByte ws with ⟨_ | curByte, behind⟩
  · rw [first] at header
    cases header
  · rw [first] at header
    dsimp only at header ⊢
    by_cases closing : curByte &&& 0xF = frmClse
    · rw [if_pos closing] at header
      cases header
    · rw [if_neg closing] at header
      rw [if_neg closing]
      rcases read : wsFrameLength behind with ⟨_ | length, rest⟩
      · rw [read] at header
        cases header
      · rw [read] at header
        cases header
        rfl

/-! ### What RFC 6455 asks of a header -/

/-- Where a header has the length of the payload: in seven bits, or in the two or eight bytes behind
them. -/
inductive LengthForm
  | sevenBits
  | twoBytes
  | eightBytes

namespace LengthForm

def headerLength : LengthForm → Nat
  | sevenBits => 2
  | twoBytes => 4
  | eightBytes => 10

/-- The lengths that the form may have: seven bits above 125 announce the other forms, and of the
eight bytes the highest bit must be 0. -/
def Carries (n : Nat) : LengthForm → Prop
  | sevenBits => n ≤ 125
  | twoBytes => n < 2 ^ 16
  | eightBytes => n < 2 ^ 63

/-- The form carries the length, and no shorter one does. -/
structure Shortest (form : LengthForm) (n : Nat) : Prop where
  carries : form.Carries n
  least : ∀ other : LengthForm, other.Carries n → form.headerLength ≤ other.headerLength

end LengthForm

/-- The exclusive or of the bytes with those of the key, over and over. -/
def cyclicXor (key : List UInt8) (bytes : List UInt8) : List UInt8 :=
  bytes.mapIdx fun i byte => byte ^^^ key.getD (i % key.length) 0

/-- The header is read back as the opcode and the length, up to its last byte. -/
def ReadsBack (header : List UInt8) (type : UInt8) (n : Nat) : Prop :=
  ∀ (ws : GfcWs) (rest : List UInt8), ws.pending = header ++ rest →
    ∃ length ws', wsHeader ws = (some (type, length), ws') ∧ length.toNat = n ∧ ws'.pending = rest

/-- The connection is closed behind the first byte of the header. -/
def ClosesBehind (header : List UInt8) : Prop :=
  ∀ (memory : WsMemory) (ws : GfcWs) (out : WsOut) (rest : List UInt8),
    ws.pending = header ++ rest →
    ∃ ws', ws'.pending = header.tail ++ rest ∧
      gfcWsRecv memory ws out = some (-1, gfcWsClose ws', out)

/-- The header has the shortest form of the length. -/
def ShortestHeader (header : List UInt8) (n : Nat) : Prop :=
  ∃ form : LengthForm, form.headerLength = header.length ∧ form.Shortest n

/-- A mask of four bytes uncovers the message. -/
def Uncovers (mask payload msg : List UInt8) : Prop :=
  mask.length = 4 ∧ cyclicXor mask payload = msg

/-- What is sent is a header that is read back as it was meant, in the shortest form, with a mask
that uncovers the message. -/
def SendsReadable (msg : List UInt8) (type : UInt8) : Prop :=
  ∃ header mask payload, gfcWsSend noFaults msg type = (0, [header, mask, payload]) ∧
    ReadsBack header type msg.length ∧ ShortestHeader header msg.length ∧ Uncovers mask payload msg

/-- The same, but for a close frame, of which the first byte closes the connection, and for the form
of lengths that no form may have. -/
def SendsFrame (msg : List UInt8) (type : UInt8) : Prop :=
  ∃ header mask payload, gfcWsSend noFaults msg type = (0, [header, mask, payload]) ∧
    (type ≠ frmClse → ReadsBack header type msg.length) ∧
    (type = frmClse → ClosesBehind header) ∧
    (msg.length < 2 ^ 63 → ShortestHeader header msg.length) ∧ Uncovers mask payload msg

section Send

variable {msg : List UInt8} {type : UInt8} {ws : GfcWs} {rest : List UInt8}

/-- The first byte of a frame. -/
theorem first_opcode (opcode : type < 16) : (frmFin ||| type) &&& 0xF = type := by
  revert opcode
  exact Bytes.forall_uint8 (P := fun type => type < 16 → (frmFin ||| type) &&& 0xF = type)
    (by decide +kernel) type

theorem second_length {byte : UInt8} (small : byte < 128) : (frmMsk ||| byte) &&& 0x7F = byte := by
  revert small
  exact Bytes.forall_uint8 (P := fun byte => byte < 128 → (frmMsk ||| byte) &&& 0x7F = byte)
    (by decide +kernel) byte

theorem toUInt8_digit (length : UInt64) {k : Nat} (small : 8 * k < 64) :
    ((length >>> UInt64.ofNat (8 * k)) &&& 255).toUInt8 =
      UInt8.ofNat (length.toNat / 256 ^ k) := by
  have amount : (UInt64.ofNat (8 * k)).toNat % 64 = 8 * k := by
    rw [UInt64.toNat_ofNat']
    omega
  rw [← UInt8.toNat_inj, UInt64.toNat_toUInt8, UInt64.toNat_and, UInt64.toNat_shiftRight, amount,
    Nat.shiftRight_eq_div_pow, UInt8.toNat_ofNat', Nat.pow_mul]
  exact (congrArg (· % 2 ^ 8) (Nat.and_two_pow_sub_one_eq_mod _ 8)).trans (Nat.mod_mod _ _)

theorem toUInt8_last (length : UInt64) :
    (length &&& 255).toUInt8 = UInt8.ofNat (length.toNat / 256 ^ 0) := by
  have digit := toUInt8_digit length (k := 0) (by decide)
  rwa [show UInt64.ofNat (8 * 0) = 0 from rfl, UInt64.shiftRight_zero] at digit

/-- A header with an opcode other than that of a close frame, whose length is read. -/
theorem readsBack_cons (opcode : type < 16) (open_frame : type ≠ frmClse) {bytes : List UInt8}
    {n : Nat} (reads : ∀ (ws : GfcWs) (rest : List UInt8), ws.pending = bytes ++ rest →
      ∃ length ws', wsFrameLength ws = (some length, ws') ∧ length.toNat = n ∧
        ws'.pending = rest) : ReadsBack ((frmFin ||| type) :: bytes) type n := by
  intro ws rest ahead
  obtain ⟨ws1, first, ahead⟩ := nextByte_cons ahead
  obtain ⟨length, ws', read, value, ahead'⟩ := reads ws1 rest ahead
  refine ⟨length, ws', ?_, value, ahead'⟩
  rw [wsHeader, first]
  simp only [first_opcode opcode, open_frame, ↓reduceIte, read]

theorem closesBehind_cons {first : UInt8} (closing : first &&& 0xF = frmClse) (bytes : List UInt8) :
    ClosesBehind (first :: bytes) := by
  intro memory ws out rest ahead
  obtain ⟨ws', read, ahead'⟩ := nextByte_cons ahead
  refine ⟨ws', ahead', ?_⟩
  rw [gfcWsRecv, read]
  exact if_pos closing

theorem shortest_sevenBits {n : Nat} (below : n ≤ 125) : LengthForm.sevenBits.Shortest n := by
  refine ⟨below, ?_⟩
  rintro (_ | _ | _) - <;> decide

theorem shortest_twoBytes {n : Nat} (above : 125 < n) (below : n < 2 ^ 16) :
    LengthForm.twoBytes.Shortest n := by
  refine ⟨below, ?_⟩
  rintro (_ | _ | _) carries
  · exact absurd carries (Nat.not_le.mpr above)
  · decide
  · decide

theorem shortest_eightBytes {n : Nat} (above : 2 ^ 16 ≤ n) (below : n < 2 ^ 63) :
    LengthForm.eightBytes.Shortest n := by
  refine ⟨below, ?_⟩
  rintro (_ | _ | _) carries
  · exact absurd carries (Nat.not_le.mpr (Nat.lt_of_lt_of_le (by decide) above))
  · exact absurd carries (Nat.not_lt.mpr above)
  · decide

/-- The bytes of the seven bits are read as the length. -/
theorem sevenBits_read {length : UInt64} (below : length.toNat ≤ 125)
    (ahead : ws.pending = [frmMsk ||| (length &&& 0x7F).toUInt8] ++ rest) :
    ∃ length' ws', wsFrameLength ws = (some length', ws') ∧ length'.toNat = length.toNat ∧
      ws'.pending = rest := by
  have value : (length &&& 0x7F).toUInt8.toNat = length.toNat := by
    have mask : (0x7F : UInt64).toNat = 2 ^ 7 - 1 := rfl
    rw [UInt64.toNat_toUInt8, UInt64.toNat_and, mask, Nat.and_two_pow_sub_one_eq_mod]
    omega
  have small : (length &&& 0x7F).toUInt8 < 128 := by
    rw [UInt8.lt_iff_toNat_lt, value]
    exact Nat.lt_of_le_of_lt below (by decide)
  have second := second_length small
  obtain ⟨ws', read, ahead'⟩ := wsFrameLength_short (by rw [second, value]; omega) ahead
  exact ⟨_, ws', read, by rw [second, UInt8.toNat_toUInt64, value], ahead'⟩

theorem twoBytes_read {length : UInt64} (below : length.toNat < 2 ^ 16)
    (ahead : ws.pending = [frmMsk ||| 126, ((length >>> 8) &&& 255).toUInt8,
      (length &&& 255).toUInt8] ++ rest) :
    ∃ length' ws', wsFrameLength ws = (some length', ws') ∧ length'.toNat = length.toNat ∧
      ws'.pending = rest := by
  obtain ⟨length', ws', read, value, ahead'⟩ := wsFrameLength_two (by decide) ahead
  refine ⟨length', ws', read, value.trans ?_, ahead'⟩
  have digit1 : ((length >>> 8) &&& 255).toUInt8 = UInt8.ofNat (length.toNat / 256 ^ 1) :=
    toUInt8_digit length (k := 1) (by decide)
  rw [digit1, toUInt8_last]
  exact BigEndian.valueFrom_zero_digits (k := 2) below

theorem eightBytes_read {length : UInt64}
    (ahead : ws.pending = [frmMsk ||| 127, ((length >>> 56) &&& 255).toUInt8,
      ((length >>> 48) &&& 255).toUInt8, ((length >>> 40) &&& 255).toUInt8,
      ((length >>> 32) &&& 255).toUInt8, ((length >>> 24) &&& 255).toUInt8,
      ((length >>> 16) &&& 255).toUInt8, ((length >>> 8) &&& 255).toUInt8,
      (length &&& 255).toUInt8] ++ rest) :
    ∃ length' ws', wsFrameLength ws = (some length', ws') ∧ length'.toNat = length.toNat ∧
      ws'.pending = rest := by
  obtain ⟨length', ws', read, value, ahead'⟩ := wsFrameLength_eight (by decide) ahead
  refine ⟨length', ws', read, value.trans ?_, ahead'⟩
  have digit (k : Nat) (small : 8 * k < 64) (amount : UInt64)
      (same : UInt64.ofNat (8 * k) = amount) :
      ((length >>> amount) &&& 255).toUInt8 = UInt8.ofNat (length.toNat / 256 ^ k) :=
    same ▸ toUInt8_digit length small
  rw [digit 7 (by decide) 56 rfl, digit 6 (by decide) 48 rfl, digit 5 (by decide) 40 rfl,
    digit 4 (by decide) 32 rfl, digit 3 (by decide) 24 rfl, digit 2 (by decide) 16 rfl,
    digit 1 (by decide) 8 rfl, toUInt8_last]
  exact BigEndian.valueFrom_zero_digits (k := 8) length.toNat_lt

/-- The header that is sent: the form of the length, and how the length is read back. -/
theorem sendFrame_read (length : UInt64) (type : UInt8) :
    ∃ bytes, (sendFrame length type).1.take (sendFrame length type).2 = (frmFin ||| type) :: bytes ∧
      (length.toNat < 2 ^ 63 → ShortestHeader ((frmFin ||| type) :: bytes) length.toNat) ∧
      ∀ (ws : GfcWs) (rest : List UInt8), ws.pending = bytes ++ rest →
        ∃ length' ws', wsFrameLength ws = (some length', ws') ∧
          length'.toNat = length.toNat ∧ ws'.pending = rest := by
  unfold sendFrame
  by_cases short : length ≤ 125
  · rw [if_pos short]
    have below : length.toNat ≤ 125 := UInt64.le_iff_toNat_le.mp short
    exact ⟨_, rfl, fun _ => ⟨.sevenBits, rfl, shortest_sevenBits below⟩,
      fun _ _ => sevenBits_read below⟩
  · rw [if_neg short]
    have above : 125 < length.toNat := by
      rwa [UInt64.le_iff_toNat_le, Nat.not_le] at short
    by_cases middle : length ≥ 126 ∧ length ≤ 65535
    · rw [if_pos middle]
      have below : length.toNat < 2 ^ 16 := Nat.lt_succ_of_le (UInt64.le_iff_toNat_le.mp middle.2)
      exact ⟨_, rfl, fun _ => ⟨.twoBytes, rfl, shortest_twoBytes above below⟩,
        fun _ _ => twoBytes_read below⟩
    · rw [if_neg middle]
      have beyond : 2 ^ 16 ≤ length.toNat := by
        by_contra below
        exact middle ⟨UInt64.le_iff_toNat_le.mpr above,
          UInt64.le_iff_toNat_le.mpr (Nat.le_of_lt_succ (Nat.not_le.mp below))⟩
      exact ⟨_, rfl, fun allowed => ⟨.eightBytes, rfl, shortest_eightBytes beyond allowed⟩,
        fun _ _ => eightBytes_read⟩

/-- The bytes that are masked from `count` on are uncovered from there. -/
theorem mapIdx_maskFrom (count : Nat) (msg : List UInt8) :
    (maskFrom count msg).mapIdx (fun i byte => byte ^^^ masks.getD ((count + i) % 4) 0) = msg := by
  induction msg generalizing count with
  | nil => rfl
  | cons byte rest ih =>
    have later := ih (count + 1)
    simp only [Nat.add_right_comm count 1] at later
    rw [maskFrom, List.mapIdx_cons]
    simp only [← Nat.add_assoc, later, Nat.add_zero, UInt8.xor_assoc, UInt8.xor_self,
      UInt8.xor_zero]

theorem cyclicXor_maskFrom (msg : List UInt8) : cyclicXor masks (maskFrom 0 msg) = msg := by
  have uncovered := mapIdx_maskFrom 0 msg
  simp only [Nat.zero_add] at uncovered
  exact uncovered

end Send

/-- What is sent is read back, but for a close frame, whose first byte closes the connection. -/
theorem sendsReadable (msg : List UInt8) (type : UInt8) (word : msg.length < 2 ^ 64)
    (opcode : type < 16) : SendsFrame msg type := by
  have length : (UInt64.ofNat msg.length).toNat = msg.length := by
    rw [UInt64.toNat_ofNat']
    exact Nat.mod_eq_of_lt word
  obtain ⟨bytes, header, shortest, reads⟩ := sendFrame_read (UInt64.ofNat msg.length) type
  rw [length] at shortest
  simp only [length] at reads
  refine ⟨(frmFin ||| type) :: bytes, masks, maskFrom 0 msg, ?_,
    fun open_frame => readsBack_cons opcode open_frame reads, ?_, shortest, rfl,
    cyclicXor_maskFrom msg⟩
  · rw [← header]
    rfl
  · rintro rfl
    exact closesBehind_cons (first_opcode opcode) bytes

theorem sendsReadable_hi : SendsFrame [104, 105] frmTxt ∧ SendsFrame [3, 232] frmClse :=
  ⟨sendsReadable [104, 105] frmTxt (by decide) (by decide),
    sendsReadable [3, 232] frmClse (by decide) (by decide)⟩

/-- Behind the first byte of a close frame nothing is read. -/
theorem sendsReadable_fails :
    ¬∀ (msg : List UInt8) (type : UInt8), msg.length < 2 ^ 64 → type < 16 →
      SendsReadable msg type := by
  intro every
  obtain ⟨header, mask, payload, sent, reads, -⟩ := every [] frmClse (by decide) (by decide)
  obtain rfl : header = [0x88, 0x80] := by
    have sends := congrArg Prod.snd sent
    have first : (gfcWsSend noFaults [] frmClse).2.head? = some [0x88, 0x80] := by decide +kernel
    rw [sends] at first
    exact Option.some.inj first
  have ahead : (GfcWs.ofBytes [0x88, 0x80]).pending = [0x88, 0x80] ++ [] := pending_ofBytes _
  obtain ⟨length, ws', read, -⟩ := reads (GfcWs.ofBytes [0x88, 0x80]) [] ahead
  have unread : (wsHeader (GfcWs.ofBytes [0x88, 0x80])).1 = none := by decide +kernel
  rw [read] at unread
  cases unread

end Guardwatch
