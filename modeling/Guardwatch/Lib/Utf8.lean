import Mathlib.Data.List.Basic
import Mathlib.Data.List.Forall2

/-! UTF-8: the continuation bytes that a first byte owes, and texts that pay all that they owe. -/

namespace Utf8

structure Range where
  first : UInt8
  last : UInt8

def Range.has (range : Range) (c : UInt8) : Bool := decide (range.first ≤ c ∧ c ≤ range.last)

def continuation : Range := ⟨0x80, 0xBF⟩

/-- The ranges of the bytes that have to follow a first byte. They leave out longer forms than
needed, the halves of surrogate pairs, and code points past the last. -/
def owed (c : UInt8) : Option (List Range) :=
  if c < 0x80 then some []
  else if c < 0xC2 then none
  else if c < 0xE0 then some [continuation]
  else if c = 0xE0 then some [⟨0xA0, 0xBF⟩, continuation]
  else if c = 0xED then some [⟨0x80, 0x9F⟩, continuation]
  else if c < 0xF0 then some [continuation, continuation]
  else if c = 0xF0 then some [⟨0x90, 0xBF⟩, continuation, continuation]
  else if c < 0xF4 then some [continuation, continuation, continuation]
  else if c = 0xF4 then some [⟨0x80, 0x8F⟩, continuation, continuation]
  else none

/-- The text has bytes in the pending ranges, and characters after them. -/
def valid : List Range → List UInt8 → Bool
  | [], [] => true
  | _ :: _, [] => false
  | range :: pending, c :: text => range.has c && valid pending text
  | [], c :: text =>
    match owed c with
    | some pending => valid pending text
    | none => false

/-- The bytes in the pending ranges, and the text after them. -/
def take : List Range → List UInt8 → Option (List UInt8 × List UInt8)
  | [], text => some ([], text)
  | _ :: _, [] => none
  | range :: pending, c :: text =>
    if range.has c then (take pending text).map fun read => (c :: read.1, read.2) else none

/-- The first character, and the text after it. -/
def char : List UInt8 → Option (List UInt8 × List UInt8)
  | [] => none
  | c :: text => do
    let pending ← owed c
    (take pending text).map fun read => (c :: read.1, read.2)

/-- Every byte that is owed has its high bit set. -/
theorem owed_high {c : UInt8} {pending : List Range} (owes : owed c = some pending) :
    ∀ range ∈ pending, 0x80 ≤ range.first := by
  unfold owed at owes
  split at owes
  · cases owes
    exact nofun
  · repeat' split at owes
    all_goals
      cases owes
      try decide

theorem take_spec {pending : List Range} {text bytes rest : List UInt8}
    (read : take pending text = some (bytes, rest)) :
    text = bytes ++ rest ∧ (∀ more, valid pending (bytes ++ more) = valid [] more) ∧
      ∀ c ∈ bytes, ∃ range ∈ pending, range.first ≤ c := by
  induction pending generalizing text bytes with
  | nil =>
    cases read
    exact ⟨rfl, fun _ => rfl, nofun⟩
  | cons range pending ih =>
    cases text with
    | nil => cases read
    | cons c text =>
      rw [take] at read
      split at read
      · rename_i has
        obtain ⟨⟨bytes', rest'⟩, tail, eq⟩ := Option.map_eq_some_iff.mp read
        cases eq
        obtain ⟨rfl, pays, high⟩ := ih tail
        refine ⟨rfl, fun more => ?_, ?_⟩
        · rw [List.cons_append, valid, has, Bool.true_and, pays]
        · intro d member
          rcases List.mem_cons.mp member with rfl | member
          · rw [Range.has, decide_eq_true_eq] at has
            exact ⟨range, List.mem_cons_self, has.1⟩
          · obtain ⟨range', listed, below⟩ := high d member
            exact ⟨range', List.mem_cons_of_mem _ listed, below⟩
      · cases read

/-- What `char` reads off the front of a text: one character, whose bytes after the first have their
high bits set. -/
theorem char_spec {text bytes rest : List UInt8} (read : char text = some (bytes, rest)) :
    ∃ c tail, bytes = c :: tail ∧ text = bytes ++ rest ∧
      (∀ more, valid [] (bytes ++ more) = valid [] more) ∧ ∀ d ∈ tail, 0x80 ≤ d := by
  cases text with
  | nil => cases read
  | cons c text =>
    obtain ⟨pending, owes, read⟩ := Option.bind_eq_some_iff.mp read
    obtain ⟨⟨tail, rest'⟩, taken, eq⟩ := Option.map_eq_some_iff.mp read
    cases eq
    obtain ⟨rfl, pays, high⟩ := take_spec taken
    refine ⟨c, tail, rfl, rfl, fun more => ?_, fun d member => ?_⟩
    · rw [List.cons_append, valid, owes]
      exact pays more
    · obtain ⟨range, listed, below⟩ := high d member
      exact UInt8.le_trans (owed_high owes range listed) below

theorem take_valid {pending : List Range} {text : List UInt8} (pays : valid pending text = true) :
    ∃ bytes rest, text = bytes ++ rest ∧ valid [] rest = true ∧
      ∀ more, take pending (text ++ more) = some (bytes, rest ++ more) := by
  induction pending generalizing text with
  | nil => exact ⟨[], text, rfl, pays, fun _ => rfl⟩
  | cons range pending ih =>
    cases text with
    | nil => cases pays
    | cons c text =>
      rw [valid, Bool.and_eq_true] at pays
      obtain ⟨bytes, rest, rfl, valid_rest, reads⟩ := ih pays.2
      refine ⟨c :: bytes, rest, rfl, valid_rest, fun more => ?_⟩
      rw [List.cons_append, take, if_pos pays.1, reads]
      rfl

/-- A valid text that is not empty starts with a character, and is valid after it. -/
theorem char_valid {c : UInt8} {text : List UInt8} (pays : valid [] (c :: text) = true) :
    ∃ tail rest, text = tail ++ rest ∧ valid [] rest = true ∧
      ∀ more, char (c :: text ++ more) = some (c :: tail, rest ++ more) := by
  rw [valid] at pays
  split at pays
  · rename_i pending owes
    obtain ⟨tail, rest, same, valid_rest, reads⟩ := take_valid pays
    refine ⟨tail, rest, same, valid_rest, fun more => ?_⟩
    rw [List.cons_append, char, owes]
    dsimp only [Option.bind_eq_bind, Option.bind_some]
    rw [reads]
    rfl
  · cases pays

/-! ### The characters of a text -/

theorem owed_low {c : UInt8} {pending : List Range} (owes : owed c = some pending) :
    ∀ range ∈ pending, range.last ≤ 0xBF := by
  unfold owed at owes
  repeat' split at owes
  all_goals
    cases owes
    try decide

theorem take_has {pending : List Range} {text bytes rest : List UInt8}
    (read : take pending text = some (bytes, rest)) :
    List.Forall₂ (fun range c => range.has c = true) pending bytes := by
  induction pending generalizing text bytes with
  | nil =>
    cases read
    exact .nil
  | cons range pending ih =>
    cases text with
    | nil => cases read
    | cons c text =>
      rw [take] at read
      split at read
      · rename_i has
        obtain ⟨⟨bytes', rest'⟩, tail, eq⟩ := Option.map_eq_some_iff.mp read
        cases eq
        exact .cons has (ih tail)
      · cases read

/-- A character is a first byte and a continuation byte for each range that it owes. -/
theorem char_owed {text bytes rest : List UInt8} (read : char text = some (bytes, rest)) :
    ∃ c tail pending, bytes = c :: tail ∧ owed c = some pending ∧ tail.length = pending.length ∧
      ∀ d ∈ tail, continuation.has d = true := by
  cases text with
  | nil => cases read
  | cons c text =>
    obtain ⟨pending, owes, read⟩ := Option.bind_eq_some_iff.mp read
    obtain ⟨⟨tail, rest'⟩, taken, eq⟩ := Option.map_eq_some_iff.mp read
    cases eq
    have has := take_has taken
    refine ⟨c, tail, pending, rfl, owes, has.length_eq.symm, fun d member => ?_⟩
    obtain ⟨i, inside, rfl⟩ := List.mem_iff_getElem.mp member
    have owing : i < pending.length := by rwa [has.length_eq]
    have in_range := has.get owing inside
    have listed := List.getElem_mem owing
    simp only [List.get_eq_getElem, Range.has, decide_eq_true_eq] at in_range
    rw [Range.has, decide_eq_true_eq]
    exact ⟨UInt8.le_trans (owed_high owes _ listed) in_range.1,
      UInt8.le_trans in_range.2 (owed_low owes _ listed)⟩

theorem char_shorter {text bytes rest : List UInt8} (read : char text = some (bytes, rest)) :
    rest.length < text.length := by
  obtain ⟨c, tail, rfl, rfl, -⟩ := char_spec read
  simp only [List.length_append, List.length_cons]
  omega

/-- The characters of a text, up to a byte at which none starts. -/
def characters (text : List UInt8) : List (List UInt8) :=
  match read : char text with
  | none => []
  | some (bytes, rest) =>
    have := char_shorter read
    bytes :: characters rest
termination_by text.length

theorem characters_char {text bytes rest : List UInt8} (read : char text = some (bytes, rest)) :
    characters text = bytes :: characters rest := by
  rw [characters]
  split
  · rename_i missing
    rw [missing] at read
    cases read
  · rename_i read'
    cases read'.symm.trans read
    rfl

/-- The text is made of the characters, one after another. -/
inductive Splits : List UInt8 → List (List UInt8) → Prop
  | nil : Splits [] []
  | cons {bytes rest : List UInt8} {chars : List (List UInt8)}
      (read : char (bytes ++ rest) = some (bytes, rest)) (splits : Splits rest chars) :
      Splits (bytes ++ rest) (bytes :: chars)

theorem splits_characters {text : List UInt8} (pays : valid [] text = true) :
    Splits text (characters text) := by
  induction text using characters.induct with
  | case1 text missing =>
    cases text with
    | nil =>
      rw [characters]
      exact .nil
    | cons c text =>
      obtain ⟨tail, rest, rfl, -, reads⟩ := char_valid pays
      have read := reads []
      rw [List.append_nil, missing] at read
      cases read
  | case2 text bytes rest read _ ih =>
    obtain ⟨c, tail, rfl, rfl, more, -⟩ := char_spec read
    rw [more] at pays
    rw [characters_char read]
    exact .cons read (ih pays)

theorem Splits.flatten {text : List UInt8} {chars : List (List UInt8)}
    (splits : Splits text chars) :
    chars.flatten = text := by
  induction splits with
  | nil => rfl
  | cons read splits ih => rw [List.flatten_cons, ih]

end Utf8
