import Guardwatch.Lib.Bytes
import Guardwatch.Lib.CString
import Mathlib.Data.List.Infix
import Mathlib.Data.List.Forall2

/-! Text input of the C library: the lines that `fgets` reads from a file, the search of `strstr`,
and the numbers of `atoi`. -/

namespace CInput

open Bytes

/-- What the calls of `fgets` with a buffer of `size` bytes read from a file one after another,
where the bytes of `line` have been read for the next one. -/
def fgetsAll (size : Nat) : (line file : List UInt8) → List (List UInt8)
  | line, [] => if line = [] then [] else [line]
  | line, c :: file =>
    if c = newline ∨ line.length + 2 = size then (line ++ [c]) :: fgetsAll size [] file
    else fgetsAll size (line ++ [c]) file

/-- The C string at the start of a buffer. -/
def cString (buffer : List UInt8) : List UInt8 := buffer.takeWhile (· ≠ 0)

/-- The text from the first place on where the needle is in it. -/
def strstr (needle : List UInt8) : (text : List UInt8) → Option (List UInt8)
  | [] => if needle = [] then some [] else none
  | c :: text => if needle.isPrefixOf (c :: text) then some (c :: text) else strstr needle text

def isspace (c : UInt8) : Bool := decide (c = 32 ∨ 9 ≤ c ∧ c ≤ 13)

def isdigit (c : UInt8) : Bool := decide (48 ≤ c ∧ c ≤ 57)

def decimal (digits : List UInt8) : Nat :=
  digits.foldl (fun n c => 10 * n + (c.toNat - 48)) 0

/-- The number as an `int`; for others the behaviour is not defined. -/
def toInt (n : Int) : Option Int := if -2 ^ 31 ≤ n ∧ n < 2 ^ 31 then some n else none

/-- The number at the start of a text, behind white space. -/
def signedNumber (text : List UInt8) : Int :=
  match text.dropWhile isspace with
  | 45 :: text => -decimal (text.takeWhile isdigit)
  | 43 :: text => decimal (text.takeWhile isdigit)
  | text => decimal (text.takeWhile isdigit)

def atoi (text : List UInt8) : Option Int := toInt (signedNumber text)

/-- `strtoll` in base 10; a number out of the range gives the end of the range. -/
def strtoll (text : List UInt8) : Int := max (-2 ^ 63) (min (signedNumber text) (2 ^ 63 - 1))

variable {size : Nat} {line file front rest needle text digits : List UInt8}
  {lines : List (List UInt8)} {c : UInt8} {n : Int}

/-! ### Lines -/

/-- Bytes of a line that leave room in the buffer. -/
theorem fgetsAll_append (clean : newline ∉ front) (room : line.length + front.length + 1 < size) :
    fgetsAll size line (front ++ rest) = fgetsAll size (line ++ front) rest := by
  induction front generalizing line with
  | nil => rw [List.nil_append, List.append_nil]
  | cons c front ih =>
    rw [List.mem_cons, not_or] at clean
    rw [List.length_cons] at room
    have further : ¬(c = newline ∨ line.length + 2 = size) := by
      rintro (rfl | full)
      · exact clean.1 rfl
      · omega
    rw [List.cons_append, fgetsAll, if_neg further, ih clean.2]
    · rw [List.append_assoc, List.singleton_append]
    · rw [List.length_append, List.length_singleton]
      omega

/-- A line without its newline that fills the buffer. -/
theorem fgetsAll_full (clean : newline ∉ line) (full : line.length + 1 = size)
    (nonempty : line ≠ []) :
    fgetsAll size [] (line ++ rest) = line :: fgetsAll size [] rest := by
  rcases List.eq_nil_or_concat line with rfl | ⟨front, c, rfl⟩
  · exact absurd rfl nonempty
  · rw [List.concat_eq_append] at *
    rw [List.length_append, List.length_singleton] at full
    have clean_front : newline ∉ front := fun member => clean (List.mem_append_left _ member)
    rw [List.append_assoc, fgetsAll_append clean_front (by simp; omega), List.nil_append,
      List.singleton_append, fgetsAll, if_pos (.inr (by omega))]

/-- A line that fits the buffer is read with its newline, or before it where there is no room. -/
theorem fgetsAll_line (clean : newline ∉ line) (short : line.length < size) :
    fgetsAll size [] (line ++ newline :: rest) = (line ++ [newline]) :: fgetsAll size [] rest ∨
      fgetsAll size [] (line ++ newline :: rest) = line :: [newline] :: fgetsAll size [] rest := by
  have alone : fgetsAll size line (newline :: rest) =
      (line ++ [newline]) :: fgetsAll size [] rest := if_pos (.inl rfl)
  by_cases empty : line = []
  · subst empty
    exact .inl alone
  · by_cases full : line.length + 1 = size
    · right
      rw [fgetsAll_full clean full empty]
      exact congrArg (line :: ·) (if_pos (.inl rfl))
    · left
      rw [fgetsAll_append clean (by simp; omega)]
      exact alone

theorem fgetsAll_last (clean : newline ∉ line) (short : line.length < size) :
    fgetsAll size [] line = if line = [] then [] else [line] := by
  by_cases empty : line = []
  · subst empty
    rfl
  · by_cases full : line.length + 1 = size
    · have read : fgetsAll size [] (line ++ []) = line :: fgetsAll size [] [] :=
        fgetsAll_full clean full empty
      rw [List.append_nil] at read
      rw [read, if_neg empty]
      rfl
    · have read : fgetsAll size [] (line ++ []) = fgetsAll size ([] ++ line) [] :=
        fgetsAll_append clean (by simp; omega)
      rw [List.append_nil] at read
      rw [read]
      rfl

/-- What is read of a line of the file. -/
def Reads (line read : List UInt8) : Prop := read = line ∨ read = line ++ [newline]

/-- Where newlines do not matter, the lines that are looked for are read once each. -/
theorem fgetsAll_filter {P : List UInt8 → Bool} (empty : P [] = false)
    (ended : ∀ line, P (line ++ [newline]) = P line) (file : List UInt8)
    (short : ∀ line ∈ file.splitOn newline, line.length < size) :
    List.Forall₂ Reads ((file.splitOn newline).filter P) ((fgetsAll size [] file).filter P) := by
  by_cases more : newline ∈ file
  · obtain ⟨line, rest, split, clean⟩ := List.eq_append_cons_of_mem more
    have shorter : rest.length < file.length := by
      rw [split, List.length_append, List.length_cons]
      omega
    rw [split, List.splitOn_append_cons_self_of_not_mem clean] at short ⊢
    rw [List.forall_mem_cons] at short
    have later := fgetsAll_filter empty ended rest short.2
    have alone : P [newline] = false := (ended []).trans empty
    rcases fgetsAll_line clean short.1 with read | read
    · rw [read, List.filter_cons, List.filter_cons, ended]
      split
      · exact .cons (.inr rfl) later
      · exact later
    · rw [read, List.filter_cons, List.filter_cons, List.filter_cons, alone]
      split
      · exact .cons (.inl rfl) later
      · exact later
  · rw [List.splitOn_eq_singleton more] at short ⊢
    rw [fgetsAll_last more (short file List.mem_cons_self)]
    by_cases nothing : file = []
    · rw [if_pos nothing, nothing, List.filter_cons, empty]
      exact .nil
    · rw [if_neg nothing, List.filter_cons]
      split
      · exact .cons (.inl rfl) .nil
      · exact .nil
termination_by file.length

/-! ### Searches -/

theorem cString_nulFree {back : List UInt8} (nulFree : 0 ∉ text) :
    cString (text ++ back) = text ++ cString back :=
  CText.takeWhile_nulFree nulFree back

theorem cString_self (nulFree : 0 ∉ text) : cString text = text := by
  have whole : cString (text ++ []) = text ++ cString [] := cString_nulFree nulFree
  rwa [List.append_nil, show cString [] = [] from rfl, List.append_nil] at whole

theorem cString_within (buffer : List UInt8) : cString buffer <:+: buffer :=
  List.IsPrefix.isInfix ( List.takeWhile_prefix _)

theorem strstr_isSome : (strstr needle text).isSome ↔ needle <:+: text := by
  induction text with
  | nil =>
    by_cases empty : needle = [] <;> simp [strstr, empty]
  | cons c text ih =>
    rw [strstr, List.infix_cons_iff]
    split
    · rename_i here
      exact iff_of_true rfl (.inl ( List.isPrefixOf_iff_prefix.mp here))
    · rename_i elsewhere
      rw [ih, or_iff_right (mt List.isPrefixOf_iff_prefix.mpr elsewhere)]

/-- A byte is found at its first place. -/
theorem strstr_byte (clean : c ∉ front) :
    strstr [c] (front ++ c :: rest) = some (c :: rest) := by
  induction front with
  | nil =>
    rw [List.nil_append, strstr, if_pos]
    simp
  | cons d front ih =>
    rw [List.mem_cons, not_or] at clean
    rw [List.cons_append, strstr, if_neg, ih clean.2]
    simp [clean.1]

/-- A newline behind the bytes of a buffer makes no difference to the search for a text without
one. -/
theorem infix_newline (clean : newline ∉ needle) (nonempty : needle ≠ []) (buffer : List UInt8) :
    needle <:+: cString (buffer ++ [newline]) ↔ needle <:+: cString buffer := by
  by_cases nul : 0 ∈ buffer
  · obtain ⟨front, rest, rfl, nulFree⟩ := List.eq_append_cons_of_mem nul
    rw [List.append_assoc, cString_nulFree nulFree, cString_nulFree nulFree]
    rfl
  · rw [cString_nulFree nul, cString_self nul, show cString [newline] = [newline] from rfl,
      List.infix_concat_iff, List.suffix_concat_iff]
    constructor
    · rintro ((empty | ⟨front, rfl, -⟩) | inside)
      · exact absurd empty nonempty
      · exact absurd (by simp) clean
      · exact inside
    · exact .inr

/-! ### Numbers -/

theorem toInt_of_lt {n : Nat} (small : n < 2 ^ 31) : toInt n = some n :=
  if_pos ⟨by omega, by omega⟩

theorem toInt_of_ge {n : Nat} (large : 2 ^ 31 ≤ n) : toInt n = none :=
  if_neg (by omega)

theorem isdigit_proper (digit : isdigit c = true) : isspace c = false ∧ c ≠ 45 ∧ c ≠ 43 := by
  have every : ∀ c, isdigit c = true → isspace c = false ∧ c ≠ 45 ∧ c ≠ 43 :=
    Bytes.forall_uint8 (by decide +kernel)
  exact every c digit

/-- Digits behind blanks, up to a byte that is no digit. -/
theorem signedNumber_digits (blanks : Nat) (all : ∀ d ∈ digits, isdigit d = true)
    (nonempty : digits ≠ []) (stops : isdigit c = false) :
    signedNumber (List.replicate blanks 32 ++ (digits ++ c :: rest)) = decimal digits := by
  have number : (digits ++ c :: rest).takeWhile isdigit = digits := CText.takeWhile_stop all stops
  obtain ⟨d, digits, rfl⟩ := List.exists_cons_of_ne_nil nonempty
  obtain ⟨solid, minus, plus⟩ := isdigit_proper (all d List.mem_cons_self)
  have blank : ∀ b ∈ List.replicate blanks 32, isspace b = true := by
    intro b member
    rw [List.eq_of_mem_replicate member]
    rfl
  rw [signedNumber, List.dropWhile_append_of_pos blank, List.cons_append, List.dropWhile_cons,
    solid, if_neg Bool.false_ne_true]
  rw [List.cons_append] at number
  split
  · rename_i same
    exact absurd (List.cons.inj same).1 minus
  · rename_i same
    exact absurd (List.cons.inj same).1 plus
  · rw [number]

theorem atoi_digits (blanks : Nat) (all : ∀ d ∈ digits, isdigit d = true) (nonempty : digits ≠ [])
    (stops : isdigit c = false) :
    atoi (List.replicate blanks 32 ++ (digits ++ c :: rest)) = toInt (decimal digits) := by
  rw [atoi, signedNumber_digits blanks all nonempty stops]

/-- Digits with a number in the range. -/
theorem strtoll_digits (all : ∀ d ∈ digits, isdigit d = true) (nonempty : digits ≠ [])
    (small : decimal digits < 2 ^ 63) (stops : isdigit c = false) :
    strtoll (digits ++ c :: rest) = decimal digits := by
  have number : signedNumber (digits ++ c :: rest) = decimal digits :=
    signedNumber_digits 0 all nonempty stops
  rw [strtoll, number]
  omega

end CInput
