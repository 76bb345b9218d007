import Guardwatch.Gfc.Utf8Split

/-! The first character of a text in `gfc_utf8.c`: which bytes `gfc_utf8_initial` copies to the
caller's buffer, and where it puts the NUL. -/

namespace Guardwatch

open Utf8

/-- The byte at an index up to the NUL. The tests below read a byte only behind one that is no
NUL. -/
def byteAt (str : CText) (i : Nat) : UInt8 := (str.bytes ++ [0])[i]?.getD 0

def gfcUtf8Single (c : CText) : Bool := decide (byteAt c 0 &&& 0x80 = 0x0)

def gfcUtf8Double (c : CText) : Bool :=
  decide (byteAt c 0 &&& 0xE0 = 0xC0) && gfcUtf8Continuation (byteAt c 1)

def gfcUtf8Triple (c : CText) : Bool :=
  decide (byteAt c 0 &&& 0xF0 = 0xE0) && gfcUtf8Continuation (byteAt c 1) &&
    gfcUtf8Continuation (byteAt c 2)

def gfcUtf8Quadruple (c : CText) : Bool :=
  decide (byteAt c 0 &&& 0xF8 = 0xF0) && gfcUtf8Continuation (byteAt c 1) &&
    gfcUtf8Continuation (byteAt c 2) && gfcUtf8Continuation (byteAt c 3)

/-- The variable `size`. -/
def utf8Size (str : CText) : Nat :=
  if gfcUtf8Single str then 1
  else if gfcUtf8Double str then 2
  else if gfcUtf8Triple str then 3
  else if gfcUtf8Quadruple str then 4
  else 0

/-- The assignment `buff[i] = c`, and `none` outside the buffer. -/
def putByte (buff : List UInt8) (i : Nat) (c : UInt8) : Option (List UInt8) :=
  if i < buff.length then some (buff.set i c) else none

/-- The returned number and the contents of the buffer; `none` is a write outside of it. -/
def gfcUtf8Initial (str : Option CText) (buff : List UInt8) : Option (UInt32 × List UInt8) :=
  match str with
  | none => some (0, buff)
  | some str =>
    if byteAt str 0 = 0 then some (0, buff)
    else do
      let size := utf8Size str
      let buff ← (List.range size).foldlM (fun buff i => putByte buff i (byteAt str i)) buff
      -- `i` is `size` after the loop
      let buff ← putByte buff (size + 1) 0
      some (UInt32.ofNat size, buff)

/-- What the call is to do with the first character of the string. -/
def TakesInitial (str : CText) (buff char : List UInt8) : Prop :=
  ∃ size buff', gfcUtf8Initial (some str) buff = some (size, buff') ∧ size.toNat = char.length ∧
    0 ∈ buff' ∧ buff'.takeWhile (· ≠ 0) = char

variable {str : CText} {buff char rest : List UInt8} {c : UInt8}

/-! ### The size -/

/-- The masks tell how many bytes a first byte owes. -/
theorem masks_owed {pending : List Range} (owes : owed c = some pending) :
    c &&& 0x80 = 0 ∧ pending.length = 0 ∨
      c &&& 0x80 ≠ 0 ∧ c &&& 0xE0 = 0xC0 ∧ pending.length = 1 ∨
      c &&& 0x80 ≠ 0 ∧ c &&& 0xE0 ≠ 0xC0 ∧ c &&& 0xF0 = 0xE0 ∧ pending.length = 2 ∨
      c &&& 0x80 ≠ 0 ∧ c &&& 0xE0 ≠ 0xC0 ∧ c &&& 0xF0 ≠ 0xE0 ∧ c &&& 0xF8 = 0xF0 ∧
        pending.length = 3 := by
  have every : ∀ c, ∀ pending ∈ owed c,
      c &&& 0x80 = 0 ∧ pending.length = 0 ∨
        c &&& 0x80 ≠ 0 ∧ c &&& 0xE0 = 0xC0 ∧ pending.length = 1 ∨
        c &&& 0x80 ≠ 0 ∧ c &&& 0xE0 ≠ 0xC0 ∧ c &&& 0xF0 = 0xE0 ∧ pending.length = 2 ∨
        c &&& 0x80 ≠ 0 ∧ c &&& 0xE0 ≠ 0xC0 ∧ c &&& 0xF0 ≠ 0xE0 ∧ c &&& 0xF8 = 0xF0 ∧
          pending.length = 3 :=
    Bytes.forall_uint8 (by decide +kernel)
  exact every c pending owes

theorem utf8Size_char (read : Utf8.char str.bytes = some (char, rest)) :
    utf8Size str = char.length := by
  obtain ⟨c, tail, pending, rfl, owes, length, continued⟩ := char_owed read
  obtain ⟨-, -, -, text, -⟩ := char_spec read
  have first : byteAt str 0 = c := by
    simp [byteAt, text]
  have next : ∀ i (inside : i < tail.length), gfcUtf8Continuation (byteAt str (i + 1)) = true := by
    intro i inside
    have at_tail : byteAt str (i + 1) = tail[i] := by
      simp [byteAt, text, List.getElem?_append_left, inside]
    rw [at_tail]
    exact continuation_has (continued _ (List.getElem_mem inside))
  rw [List.length_cons, length]
  rw [length] at next
  unfold utf8Size gfcUtf8Single gfcUtf8Double gfcUtf8Triple gfcUtf8Quadruple
  rw [first]
  rcases masks_owed owes with ⟨single, owing⟩ | ⟨high, double, owing⟩ | ⟨high, two, triple, owing⟩ |
    ⟨high, two, three, quadruple, owing⟩
  · simp [single, owing]
  · simp [high, double, next 0, owing]
  · simp [high, two, triple, next 0, next 1, owing]
  · simp [high, two, three, quadruple, next 0, next 1, next 2, owing]

/-! ### The copy -/

theorem copy_initial (f : Nat → UInt8) (size : Nat) (buff : List UInt8) :
    (List.range size).foldlM (fun buff i => putByte buff i (f i)) buff =
      if size ≤ buff.length then some ((List.range size).map f ++ buff.drop size) else none := by
  induction size with
  | zero => simp
  | succ size ih =>
    rw [List.range_succ, List.foldlM_append, ih]
    rcases Nat.lt_trichotomy size buff.length with room | full | beyond
    · have put : ((List.range size).map f ++ buff.drop size).set size (f size) =
          (List.range size).map f ++ f size :: buff.drop (size + 1) := by
        rw [List.set_append_right _ _ (by simp), List.length_map, List.length_range, Nat.sub_self,
          List.drop_eq_getElem_cons room, List.set_cons_zero]
      simp [putByte, Nat.le_of_lt room, room, put, Nat.succ_le_of_lt room]
    · simp [putByte, full]
    · simp [Nat.not_le_of_gt beyond, Nat.not_le_of_gt (Nat.lt_succ_of_lt beyond)]

theorem map_byteAt (text : str.bytes = char ++ rest) :
    (List.range char.length).map (byteAt str) = char := by
  refine List.ext_getElem (by simp) fun i _ inside => ?_
  simp [byteAt, text, List.getElem?_append_left, inside]

/-- The NUL is put one byte too far, so that a byte of the buffer's old contents is left before
it. -/
theorem gfcUtf8Initial_char (read : Utf8.char str.bytes = some (char, rest)) :
    gfcUtf8Initial (some str) buff =
      if char.length + 1 < buff.length then
        some (UInt32.ofNat char.length, char ++ (buff.drop char.length).set 1 0)
      else none := by
  obtain ⟨c, tail, rfl, text, -⟩ := char_spec read
  have proper : byteAt str 0 ≠ 0 := by
    have member : c ∈ str.bytes := by simp [text]
    have first : byteAt str 0 = c := by simp [byteAt, text]
    rw [first]
    rintro rfl
    exact str.nulFree member
  rw [gfcUtf8Initial]
  dsimp only
  rw [if_neg proper, utf8Size_char read, copy_initial, map_byteAt text]
  generalize c :: tail = char
  by_cases room : char.length + 1 < buff.length
  · have fits : char.length ≤ buff.length := by omega
    have inside : char.length + 1 < (char ++ buff.drop char.length).length := by
      rw [List.length_append, List.length_drop]
      omega
    rw [if_pos fits, if_pos room, Option.bind_eq_bind, Option.bind_some, putByte, if_pos inside,
      List.set_append_right _ _ (by omega), Nat.add_sub_cancel_left]
    rfl
  · rw [if_neg room]
    by_cases fits : char.length ≤ buff.length
    · have outside : ¬char.length + 1 < (char ++ buff.drop char.length).length := by
        rw [List.length_append, List.length_drop]
        omega
      rw [if_pos fits, Option.bind_eq_bind, Option.bind_some, putByte, if_neg outside]
      rfl
    · rw [if_neg fits]
      rfl

/-! ### The first character -/

theorem char_length_le (read : Utf8.char str.bytes = some (char, rest)) : char.length ≤ 4 := by
  obtain ⟨c, tail, pending, rfl, owes, length, -⟩ := char_owed read
  have owing := masks_owed owes
  rw [List.length_cons, length]
  omega

/-- What a buffer reads as behind bytes that are no NUL. -/
theorem takeWhile_initial (nulFree : 0 ∉ char) (b : UInt8) (more : List UInt8) :
    (char ++ b :: 0 :: more).takeWhile (· ≠ 0) = char ↔ b = 0 := by
  rw [CText.takeWhile_nulFree nulFree, List.append_right_eq_self]
  by_cases nul : b = 0
  · simp [nul]
  · simp [nul]

theorem takesInitial_iff (read : Utf8.char str.bytes = some (char, rest)) :
    TakesInitial str buff char ↔
      buff[char.length]? = some 0 ∧ char.length + 1 < buff.length := by
  have small := char_length_le read
  have nulFree : 0 ∉ char := by
    obtain ⟨-, -, -, text, -⟩ := char_spec read
    exact fun member => str.nulFree (text ▸ List.mem_append_left rest member)
  unfold TakesInitial
  rw [gfcUtf8Initial_char read]
  by_cases room : char.length + 1 < buff.length
  · have ahead : buff.drop char.length =
        buff[char.length] :: buff[char.length + 1] :: buff.drop (char.length + 2) := by
      rw [List.drop_eq_getElem_cons (by omega), List.drop_eq_getElem_cons room]
    rw [if_pos room, ahead, List.set_cons_succ, List.set_cons_zero]
    have size : (UInt32.ofNat char.length).toNat = char.length :=
      UInt32.toNat_ofNat_of_lt' (by show char.length < 4294967296; omega)
    constructor
    · rintro ⟨_, _, ⟨⟩, -, -, reads⟩
      rw [takeWhile_initial nulFree] at reads
      exact ⟨by rw [List.getElem?_eq_getElem (by omega), reads], room⟩
    · rintro ⟨behind, -⟩
      refine ⟨_, _, rfl, size, by simp, ?_⟩
      rw [takeWhile_initial nulFree]
      exact (List.getElem_eq_iff _).mpr behind
  · rw [if_neg room]
    constructor
    · rintro ⟨_, _, ⟨⟩, -⟩
    · exact fun ⟨_, room'⟩ => absurd room' room

/-- For a text that is not empty the buffer reads as its first character if and only if it had a NUL
there before, and another byte behind it. -/
theorem gfcUtf8Initial_iff (nonempty : str.bytes ≠ []) (valid : Utf8.valid [] str.bytes = true)
    (buff : List UInt8) :
    ∃ char rest, Utf8.char str.bytes = some (char, rest) ∧
      (TakesInitial str buff char ↔
        buff[char.length]? = some 0 ∧ char.length + 1 < buff.length) := by
  obtain ⟨c, text, split⟩ := List.exists_cons_of_ne_nil nonempty
  obtain ⟨tail, rest, rfl, -, reads⟩ := char_valid (split ▸ valid)
  have read := reads []
  rw [List.append_nil, List.append_nil, ← split] at read
  exact ⟨c :: tail, rest, read, takesInitial_iff read⟩

/-- The euro sign, taken to a buffer of NULs. -/
theorem gfcUtf8Initial_iff_euro :
    (CText.ofString "€5").bytes ≠ [] ∧ Utf8.valid [] (CText.ofString "€5").bytes = true ∧
      ∃ char rest, Utf8.char (CText.ofString "€5").bytes = some (char, rest) ∧
        (TakesInitial (.ofString "€5") (List.replicate 8 0) char ↔
          (List.replicate 8 (0 : UInt8))[char.length]? = some 0 ∧
            char.length + 1 < (List.replicate 8 (0 : UInt8)).length) :=
  ⟨by decide +kernel, by decide +kernel,
    gfcUtf8Initial_iff (by decide +kernel) (by decide +kernel) _⟩

/-- In a buffer of letters the text `a` leaves the letter behind it. -/
theorem gfcUtf8Initial_fails :
    ¬∀ (str : CText) (buff char rest : List UInt8), Utf8.valid [] str.bytes = true →
      Utf8.char str.bytes = some (char, rest) → TakesInitial str buff char := by
  intro every
  have taken := every (.ofString "a") (CText.utf8 "xyz") [97] [] (by decide +kernel)
    (by decide +kernel)
  obtain ⟨size, buff', call, -, -, reads⟩ := taken
  have returned : gfcUtf8Initial (some (.ofString "a")) (CText.utf8 "xyz") =
      some (1, [97, 121, 0]) := by decide +kernel
  cases call.symm.trans returned
  exact absurd reads (by decide +kernel)

end Guardwatch
