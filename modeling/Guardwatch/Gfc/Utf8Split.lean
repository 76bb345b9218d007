import Guardwatch.Gfc.Utf8
import Guardwatch.Lib.Bytes
import Guardwatch.Lib.Utf8

/-! What `gfc_utf8_convert` makes of a valid text: the bytes of its characters, without their
lengths. -/

namespace Guardwatch

open Utf8

/-- What the conversion is to give: the number of characters, and for each one its bytes and its
length. -/
structure SplitsText (str : CText) (utf8len : UInt32) (out : GfcUtf8String) : Prop where
  returned : utf8len.toNat = (characters str.bytes).length
  length : out.length.toInt = (characters str.bytes).length
  char_length : ∀ (i : Nat) (char : List UInt8), (characters str.bytes)[i]? = some char →
    ∃ entry : GfcUtf8Char, out.chars[i]? = some entry ∧ entry.length.toInt = char.length
  char_bytes : ∀ (i : Nat) (char : List UInt8), (characters str.bytes)[i]? = some char →
    ∃ entry : GfcUtf8Char, out.chars[i]? = some entry ∧
      (List.ofFn entry.bytes).take char.length = char

variable {str : CText} {len : Int32} {i index size turns : Nat} {out out' : GfcUtf8String}
  {bytes rest text : List UInt8} {chars : List (List UInt8)}

/-! ### Characters -/

/-- A first byte announces itself and the bytes that it owes, and is no continuation byte. -/
theorem announced_owed {c : UInt8} {pending : List Range} (owes : owed c = some pending) :
    announced c = pending.length + 1 ∧ gfcUtf8Continuation c = false := by
  have every : ∀ c, ∀ pending ∈ owed c,
      announced c = pending.length + 1 ∧ gfcUtf8Continuation c = false :=
    Bytes.forall_uint8 (by decide +kernel)
  exact every c pending owes

theorem continuation_has {d : UInt8} (has : continuation.has d = true) :
    gfcUtf8Continuation d = true := by
  have every : ∀ d, continuation.has d = true → gfcUtf8Continuation d = true :=
    Bytes.forall_uint8 (by decide +kernel)
  exact every d has

/-- The first byte of a character announces all of its bytes, and is counted alone. -/
theorem announced_char (read : char text = some (bytes, rest)) :
    ∃ c tail, bytes = c :: tail ∧ announced c = bytes.length ∧
      bytes.countP (fun c => !gfcUtf8Continuation c) = 1 := by
  obtain ⟨c, tail, pending, rfl, owes, length, continued⟩ := char_owed read
  obtain ⟨announces, first⟩ := announced_owed owes
  refine ⟨c, tail, rfl, ?_, ?_⟩
  · rw [announces, List.length_cons, length]
  · have none : tail.countP (fun c => !gfcUtf8Continuation c) = 0 := by
      rw [List.countP_eq_zero]
      intro d member
      rw [continuation_has (continued d member)]
      decide
    rw [List.countP_cons, none, first]
    rfl

/-- Counting and splitting agree. -/
theorem countP_splits (splits : Splits text chars) :
    text.countP (fun c => !gfcUtf8Continuation c) = chars.length := by
  induction splits with
  | nil => rfl
  | cons read splits ih =>
    obtain ⟨c, tail, -, -, one⟩ := announced_char read
    rw [List.countP_append, one, ih, List.length_cons, Nat.add_comm]

/-! ### The loop -/

theorem utf8Store_text {before : List UInt8} {char : GfcUtf8Char}
    (at_text : str.bytes = before ++ (bytes ++ rest))
    (small : before.length + bytes.length < 2 ^ 31) (entry : out.chars[index]? = some char) :
    utf8Store str before.length index bytes.length out =
      some { chars := out.chars.set index (char.store bytes)
             length := Int32.ofNat bytes.length } := by
  rw [utf8Store, if_pos small, entry, CText.read_text at_text]
  rfl

/-- The characters are stored one after another, and the last of them leaves its length. -/
structure Filled (out out' : GfcUtf8String) (index : Nat) (chars : List (List UInt8)) : Prop where
  before : ∀ j < index, out'.chars[j]? = out.chars[j]?
  stored : ∀ j char, chars[j]? = some char → ∃ entry : GfcUtf8Char,
    out.chars[index + j]? = some entry ∧ out'.chars[index + j]? = some (entry.store char)
  length : out'.length = (chars.getLast?.map fun char => Int32.ofNat char.length).getD out.length

theorem Filled.cons {char : List UInt8} {entry : GfcUtf8Char} {chars : List (List UInt8)}
    (at_entry : out.chars[index]? = some entry)
    (filled : Filled { chars := out.chars.set index (entry.store char),
                       length := Int32.ofNat char.length } out' (index + 1) chars) :
    Filled out out' index (char :: chars) := by
  constructor
  case before =>
    intro j earlier
    rw [filled.before j (Nat.lt_succ_of_lt earlier), List.getElem?_set_ne (Nat.ne_of_gt earlier)]
  case stored =>
    intro j stored at_j
    cases j with
    | zero =>
      obtain rfl := Option.some.inj at_j
      have inside := (List.getElem?_eq_some_iff.mp at_entry).1
      refine ⟨entry, at_entry, ?_⟩
      rw [Nat.add_zero, filled.before index (Nat.lt_succ_self index),
        List.getElem?_set_self inside]
    | succ j =>
      obtain ⟨old, at_old, at_new⟩ := filled.stored j stored at_j
      rw [List.getElem?_set_ne (by omega), Nat.add_assoc, Nat.add_comm 1] at at_old
      rw [Nat.add_assoc, Nat.add_comm 1] at at_new
      exact ⟨old, at_old, at_new⟩
  case length =>
    rw [filled.length, List.getLast?_cons]
    cases chars.getLast? <;> rfl

theorem utf8Fill_splits (splits : Splits text chars) {before : List UInt8}
    (at_text : str.bytes = before ++ text) (small : str.bytes.length < 2 ^ 31)
    (all : len.toInt = str.bytes.length) (room : index + chars.length ≤ out.chars.length)
    (enough : text.length < turns) :
    ∃ out', utf8Fill str len turns before.length index out = some out' ∧
      Filled out out' index chars := by
  induction splits generalizing before index out turns with
  | nil =>
    obtain ⟨turns, rfl⟩ := Nat.exists_eq_add_one_of_ne_zero (Nat.ne_of_gt enough)
    have past : ¬(before.length : Int) < len.toInt := by
      rw [all, at_text, List.append_nil]
      exact Int.lt_irrefl _
    exact ⟨out, by rw [utf8Fill, if_neg past], fun _ _ => rfl, nofun, rfl⟩
  | @cons bytes rest chars read splits ih =>
    obtain ⟨turns, rfl⟩ :=
      Nat.exists_eq_add_one_of_ne_zero (Nat.ne_of_gt (Nat.zero_lt_of_lt enough))
    obtain ⟨c, tail, rfl, announces, -⟩ := announced_char read
    have inside : before.length < str.bytes.length := by
      rw [at_text]
      simp
    have more : (before.length : Int) < len.toInt := by omega
    have here : str.bytes[before.length] = c := by
      simp [at_text]
    obtain ⟨entry, at_entry⟩ : ∃ entry, out.chars[index]? = some entry := by
      rw [List.length_cons] at room
      exact ⟨_, List.getElem?_eq_getElem (by omega)⟩
    have size : before.length + (c :: tail).length ≤ str.bytes.length := by
      rw [at_text, List.length_append, List.length_append]
      omega
    have stored := utf8Store_text at_text (by omega) at_entry
    obtain ⟨out', filled, rest_filled⟩ := @ih (index + 1) turns
      { chars := out.chars.set index (entry.store (c :: tail))
        length := Int32.ofNat (c :: tail).length }
      (before ++ c :: tail) (by rw [at_text, List.append_assoc])
      (by rw [List.length_set]; rw [List.length_cons] at room; omega)
      (by rw [List.length_append, List.length_cons] at enough; omega)
    rw [utf8Fill_turn more inside, here, announces, stored, Option.bind_some, ← List.length_append]
    exact ⟨out', filled, .cons at_entry rest_filled⟩

theorem utf8Store_lengths (stored : utf8Store str i index size out = some out') :
    out'.chars.map GfcUtf8Char.length = out.chars.map GfcUtf8Char.length := by
  unfold utf8Store at stored
  split at stored
  · obtain ⟨char, at_char, stored⟩ := Option.bind_eq_some_iff.mp stored
    obtain ⟨bytes, -, stored⟩ := Option.bind_eq_some_iff.mp stored
    cases stored
    obtain ⟨inside, rfl⟩ := List.getElem?_eq_some_iff.mp at_char
    have inside' : index < (out.chars.map GfcUtf8Char.length).length := by rwa [List.length_map]
    have kept : (out.chars[index].store bytes).length =
        (out.chars.map GfcUtf8Char.length)[index] :=
      (List.getElem_map GfcUtf8Char.length).symm
    rw [List.map_set, kept, List.set_getElem_self]
  · cases stored

/-- The loop assigns no character's length. -/
theorem utf8Fill_lengths (filled : utf8Fill str len turns i index out = some out') :
    out'.chars.map GfcUtf8Char.length = out.chars.map GfcUtf8Char.length := by
  induction turns generalizing i index out with
  | zero => cases filled
  | succ turns ih =>
    rw [utf8Fill] at filled
    split at filled
    · obtain ⟨bytes, -, filled⟩ := Option.bind_eq_some_iff.mp filled
      obtain ⟨ch, -, filled⟩ := Option.bind_eq_some_iff.mp filled
      split at filled
      · cases filled
        rfl
      · obtain ⟨next, stored, filled⟩ := Option.bind_eq_some_iff.mp filled
        rw [ih filled, utf8Store_lengths stored]
    · cases filled
      rfl

/-! ### Valid texts -/

/-- A valid text shorter than 2^31 bytes comes apart into its characters, whose lengths stay as they
were in the memory of the array. The length of the string is that of its last character. -/
theorem gfcUtf8Convert_valid (memory : Nat → GfcUtf8Char) (pays : valid [] str.bytes = true)
    (small : str.bytes.length < 2 ^ 31) :
    ∃ utf8len out, gfcUtf8Convert memory str = some (utf8len, out) ∧
      utf8len.toNat = (characters str.bytes).length ∧
      (∀ i, out.chars[i]? =
        (characters str.bytes)[i]?.map fun char => (memory i).store char) ∧
      out.length = ((characters str.bytes).getLast?.map fun char =>
        Int32.ofNat char.length).getD 0 := by
  have splits := splits_characters pays
  have counted := countP_splits splits
  have few : (characters str.bytes).length ≤ str.bytes.length :=
    counted ▸ List.countP_le_length
  have number : (gfcUtf8Length str).toInt32 = Int32.ofNat (characters str.bytes).length := by
    rw [gfcUtf8Length, counted]
    rfl
  have entries := Int32.toInt_ofNat_of_lt (Nat.lt_of_le_of_lt few small)
  have all := Int32.toInt_ofNat_of_lt small
  obtain ⟨out, filled, splitted⟩ := @utf8Fill_splits str _ 0 (str.bytes.length + 1)
    { chars := (List.range (characters str.bytes).length).map memory
      length := Int32.ofNat (characters str.bytes).length }
    _ _ splits [] rfl small all (by simp) (Nat.lt_succ_self _)
  refine ⟨(gfcUtf8Length str).toInt32.toUInt32, out, ?_, ?_, fun i => ?_, ?_⟩
  · simp only [gfcUtf8Convert, number, entries, Int.toNat_natCast]
    rw [List.length_nil] at filled
    rw [filled]
    rfl
  · rw [UInt32.toUInt32_toInt32, gfcUtf8Length, counted, UInt32.toNat_ofNat']
    exact Nat.mod_eq_of_lt (by omega)
  · cases at_i : (characters str.bytes)[i]? with
    | none =>
      have length := congrArg List.length (utf8Fill_lengths filled)
      simp only [List.length_map, List.length_range] at length
      rw [List.getElem?_eq_none_iff] at at_i
      rw [List.getElem?_eq_none (by omega)]
      rfl
    | some char =>
      obtain ⟨entry, at_entry, stored⟩ := splitted.stored i char at_i
      have inside := (List.getElem?_eq_some_iff.mp at_i).1
      rw [Nat.zero_add] at at_entry stored
      rw [List.getElem?_map, List.getElem?_range inside] at at_entry
      rw [stored, ← Option.some.inj at_entry]
      rfl
  · rw [splitted.length]
    cases characters str.bytes <;> rfl

/-- The conversion gives what it is to give, whatever is in the memory of the array, for the empty
text only. -/
theorem splitsText_iff (str : CText) (pays : valid [] str.bytes = true) :
    (∀ memory, ∃ utf8len out, gfcUtf8Convert memory str = some (utf8len, out) ∧
      SplitsText str utf8len out) ↔ str.bytes = [] := by
  constructor
  · intro every
    obtain ⟨utf8len, out, converted, splits⟩ := every fun _ => ⟨fun _ => 0, 0⟩
    obtain ⟨out', filled, same⟩ := Option.map_eq_some_iff.mp converted
    cases same
    have lengths := utf8Fill_lengths filled
    by_contra nonempty
    obtain ⟨first, rest, chars⟩ : ∃ first rest, characters str.bytes = first :: rest := by
      refine List.exists_cons_of_ne_nil fun none => nonempty ?_
      rw [← (splits_characters pays).flatten, none, List.flatten_nil]
    obtain ⟨entry, at_entry, length⟩ := splits.char_length 0 first (by rw [chars]; rfl)
    have zero : entry.length = 0 := by
      have member := List.mem_map_of_mem (f := GfcUtf8Char.length) (List.mem_of_getElem? at_entry)
      rw [lengths, List.map_map, List.mem_map] at member
      obtain ⟨i, -, same⟩ := member
      exact same.symm
    have splitted := splits_characters pays
    rw [chars] at splitted
    generalize str.bytes = text at splitted
    cases splitted with
    | cons read _ =>
      obtain ⟨c, tail, rfl, -⟩ := announced_char read
      rw [zero, Int32.toInt_zero, List.length_cons] at length
      omega
  · intro empty memory
    obtain ⟨utf8len, out, converted, number, -, length⟩ :=
      gfcUtf8Convert_valid memory pays (by rw [empty]; decide)
    have none : characters str.bytes = [] := by
      rw [empty, characters]
      rfl
    rw [none] at length
    refine ⟨utf8len, out, converted, number, ?_, ?_, ?_⟩
    · rw [none, length]
      rfl
    · intro i char at_i
      rw [none] at at_i
      cases at_i
    · intro i char at_i
      rw [none] at at_i
      cases at_i

theorem splitsText_iff_aEuro :
    (∀ memory, ∃ utf8len out,
      gfcUtf8Convert memory ⟨[97, 0xE2, 0x82, 0xAC], by decide⟩ = some (utf8len, out) ∧
        SplitsText ⟨[97, 0xE2, 0x82, 0xAC], by decide⟩ utf8len out) ↔
      [97, 0xE2, 0x82, 0xAC] = ([] : List UInt8) :=
  splitsText_iff ⟨[97, 0xE2, 0x82, 0xAC], by decide⟩ (by decide)

/-- The length of the only character is what was in the memory. -/
theorem splitsText_fails :
    ¬∀ (memory : Nat → GfcUtf8Char) (str : CText), valid [] str.bytes = true →
      ∃ utf8len out, gfcUtf8Convert memory str = some (utf8len, out) ∧
        SplitsText str utf8len out := by
  intro every
  obtain ⟨utf8len, out, converted, splits⟩ :=
    every (fun _ => ⟨fun _ => 0, 7⟩) ⟨[97], by decide⟩ (by decide)
  have chars : characters [97] = [[97]] := by
    rw [@characters_char [97] [97] [] (by decide), characters]
    rfl
  have lengths : (gfcUtf8Convert (fun _ => ⟨fun _ => 0, 7⟩) ⟨[97], by decide⟩).map
      (fun result => result.2.chars.map GfcUtf8Char.length) = some [7] := by
    decide +kernel
  rw [converted, Option.map_some, Option.some.injEq] at lengths
  obtain ⟨entry, at_entry, length⟩ := splits.char_length 0 [97] (by rw [chars]; rfl)
  have member := List.mem_map_of_mem (f := GfcUtf8Char.length) (List.mem_of_getElem? at_entry)
  rw [lengths, List.mem_singleton] at member
  rw [member] at length
  exact absurd length (by decide)

end Guardwatch
