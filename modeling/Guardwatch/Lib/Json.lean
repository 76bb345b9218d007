import Guardwatch.Lib.Utf8

/-! JSON texts as bytes: a reader for values, and the strings that stand for themselves. -/

namespace Json

def quote : UInt8 := 34
def backslash : UInt8 := 92

/-- Values, with numbers as they are written and strings as UTF-8. -/
inductive Value
  | null
  | bool (b : Bool)
  | number (text : List UInt8)
  | string (text : List UInt8)
  | array (items : List Value)
  | object (members : List (List UInt8 × Value))

/-- The value of a name that the object has once. JSON does not say which value a name has that
the object has twice. -/
def Value.member (name : List UInt8) : Value → Option Value
  | .object members =>
    match members.filter fun member => member.1 = name with
    | [member] => some member.2
    | _ => none
  | _ => none

/-! ### Strings -/

def hexDigit (c : UInt8) : Option Nat :=
  if 48 ≤ c ∧ c ≤ 57 then some (c.toNat - 48)
  else if 65 ≤ c ∧ c ≤ 70 then some (c.toNat - 55)
  else if 97 ≤ c ∧ c ≤ 102 then some (c.toNat - 87)
  else none

/-- A number of four hexadecimal digits. -/
def unit : List UInt8 → Option (Nat × List UInt8)
  | a :: b :: c :: d :: text => do
    let a ← hexDigit a
    let b ← hexDigit b
    let c ← hexDigit c
    let d ← hexDigit d
    some (((a * 16 + b) * 16 + c) * 16 + d, text)
  | _ => none

/-- The second half of a surrogate pair, escaped after the first. -/
def secondHalf (first : Nat) : List UInt8 → Option (Nat × List UInt8)
  | c :: d :: text =>
    if 0xD800 ≤ first ∧ first < 0xDC00 ∧ c = backslash ∧ d = 117 then do
      let (second, text) ← unit text
      if 0xDC00 ≤ second ∧ second < 0xE000 then some (second, text) else none
    else none
  | _ => none

/-- The UTF-8 bytes of a code point. Half of a surrogate pair has the bytes that its number would
have. -/
def encode (point : Nat) : List UInt8 :=
  if point < 0x80 then [.ofNat point]
  else if point < 0x800 then [.ofNat (0xC0 + point / 64), .ofNat (0x80 + point % 64)]
  else if point < 0x10000 then
    [.ofNat (0xE0 + point / 4096), .ofNat (0x80 + point / 64 % 64), .ofNat (0x80 + point % 64)]
  else
    [.ofNat (0xF0 + point / 262144), .ofNat (0x80 + point / 4096 % 64),
      .ofNat (0x80 + point / 64 % 64), .ofNat (0x80 + point % 64)]

def unicode (text : List UInt8) : Option (List UInt8 × List UInt8) := do
  let (first, text) ← unit text
  match secondHalf first text with
  | some (second, text) =>
    some (encode (0x10000 + (first - 0xD800) * 0x400 + (second - 0xDC00)), text)
  | none => some (encode first, text)

/-- The letters of escapes, with the bytes that they stand for. -/
def escapes : List (UInt8 × UInt8) :=
  [(quote, quote), (backslash, backslash), (47, 47), (98, 8), (102, 12), (110, 10), (114, 13),
    (116, 9)]

/-- A character after a backslash. -/
def escaped : List UInt8 → Option (List UInt8 × List UInt8)
  | [] => none
  | c :: text =>
    if c = 117 then unicode text
    else (escapes.lookup c).map fun byte => ([byte], text)

def character : List UInt8 → Option (List UInt8 × List UInt8)
  | [] => none
  | c :: text =>
    if c = backslash then escaped text
    else if c < 0x20 then none
    else Utf8.char (c :: text)

/-- At most `fuel` characters and the closing quote. -/
def characters : Nat → List UInt8 → Option (List UInt8 × List UInt8)
  | 0, _ => none
  | _ + 1, [] => none
  | fuel + 1, c :: text =>
    if c = quote then some ([], text)
    else do
      let (bytes, text) ← character (c :: text)
      let (more, text) ← characters fuel text
      some (bytes ++ more, text)

/-- The rest of a string after its opening quote. -/
def string (text : List UInt8) : Option (List UInt8 × List UInt8) := characters text.length text

/-! ### Numbers: the readers give the text after what they read -/

def isDigit (c : UInt8) : Bool := decide (48 ≤ c ∧ c ≤ 57)

def digits : List UInt8 → Option (List UInt8)
  | [] => none
  | c :: text => if isDigit c then some (text.dropWhile isDigit) else none

def whole : List UInt8 → Option (List UInt8)
  | [] => none
  | c :: text => if c = 48 then some text else digits (c :: text)

def fraction : List UInt8 → Option (List UInt8)
  | [] => some []
  | c :: text => if c = 46 then digits text else some (c :: text)

def sign : List UInt8 → List UInt8
  | [] => []
  | c :: text => if c = 43 ∨ c = 45 then text else c :: text

def exponent : List UInt8 → Option (List UInt8)
  | [] => some []
  | c :: text => if c = 101 ∨ c = 69 then digits (sign text) else some (c :: text)

def minus : List UInt8 → List UInt8
  | [] => []
  | c :: text => if c = 45 then text else c :: text

def number (text : List UInt8) : Option (Value × List UInt8) := do
  let rest ← whole (minus text)
  let rest ← fraction rest
  let rest ← exponent rest
  some (.number (text.take (text.length - rest.length)), rest)

/-! ### Values -/

def isSpace (c : UInt8) : Bool := c == 32 || c == 9 || c == 10 || c == 13

def skip (text : List UInt8) : List UInt8 := text.dropWhile isSpace

/-- The text after white space and the byte. -/
def next (c : UInt8) (text : List UInt8) : Option (List UInt8) :=
  match skip text with
  | [] => none
  | d :: rest => if d = c then some rest else none

def keywords : List (List UInt8 × Value) :=
  [([110, 117, 108, 108], .null), ([116, 114, 117, 101], .bool true),
    ([102, 97, 108, 115, 101], .bool false)]

def keyword (text : List UInt8) : Option (Value × List UInt8) :=
  (keywords.find? fun word => word.1.isPrefixOf text).map fun word =>
    (word.2, text.drop word.1.length)

mutual

/-- A value at the front of the text. A bracket takes two calls, so twice the length of the text is
fuel enough. -/
def value : Nat → List UInt8 → Option (Value × List UInt8)
  | 0, _ => none
  | _ + 1, [] => none
  | fuel + 1, c :: text =>
    if c = quote then (string text).map fun read => (.string read.1, read.2)
    else if c = 91 then
      match next 93 text with
      | some rest => some (.array [], rest)
      | none => (items fuel text).map fun read => (.array read.1, read.2)
    else if c = 123 then
      match next 125 text with
      | some rest => some (.object [], rest)
      | none => (members fuel text).map fun read => (.object read.1, read.2)
    else (keyword (c :: text)).or (number (c :: text))

/-- The items of an array, and its closing bracket. -/
def items : Nat → List UInt8 → Option (List Value × List UInt8)
  | 0, _ => none
  | fuel + 1, text => do
    let (item, text) ← value fuel (skip text)
    match next 44 text with
    | some text => (items fuel text).map fun read => (item :: read.1, read.2)
    | none => (next 93 text).map fun text => ([item], text)

/-- The members of an object, and its closing bracket. -/
def members : Nat → List UInt8 → Option (List (List UInt8 × Value) × List UInt8)
  | 0, _ => none
  | fuel + 1, text => do
    let text ← next quote text
    let (name, text) ← string text
    let text ← next 58 text
    let (member, text) ← value fuel (skip text)
    match next 44 text with
    | some text => (members fuel text).map fun read => ((name, member) :: read.1, read.2)
    | none => (next 125 text).map fun text => ([(name, member)], text)

end

/-- The value of a text that is one value, with white space around it. -/
def parse (text : List UInt8) : Option Value := do
  let (value, rest) ← value (2 * text.length + 2) (skip text)
  if skip rest = [] then some value else none

/-! ### Strings that stand for themselves -/

/-- Text that is its own string: UTF-8 in which nothing has to be escaped. -/
structure Plain (text : List UInt8) : Prop where
  valid : Utf8.valid [] text = true
  unescaped : ∀ c ∈ text, c ≠ quote ∧ c ≠ backslash ∧ 0x20 ≤ c

instance (text : List UInt8) : Decidable (Plain text) :=
  haveI : Decidable (∀ c ∈ text, c ≠ quote ∧ c ≠ backslash ∧ 0x20 ≤ c) :=
    List.decidableBAll _ text
  decidable_of_iff (Utf8.valid [] text = true ∧ ∀ c ∈ text, c ≠ quote ∧ c ≠ backslash ∧ 0x20 ≤ c)
    ⟨fun h => ⟨h.1, h.2⟩, fun h => ⟨h.valid, h.unescaped⟩⟩

theorem plain_nil : Plain [] := ⟨rfl, nofun⟩

theorem encode_length (point : Nat) : (encode point).length ≤ 4 := by
  unfold encode
  split_ifs <;> simp

theorem unit_spec {text rest : List UInt8} {n : Nat} (read : unit text = some (n, rest)) :
    ∃ raw, text = raw ++ rest ∧ raw.length = 4 := by
  unfold unit at read
  split at read
  · rename_i a b c d text
    obtain ⟨a', -, read⟩ := Option.bind_eq_some_iff.mp read
    obtain ⟨b', -, read⟩ := Option.bind_eq_some_iff.mp read
    obtain ⟨c', -, read⟩ := Option.bind_eq_some_iff.mp read
    obtain ⟨d', -, read⟩ := Option.bind_eq_some_iff.mp read
    cases read
    exact ⟨[a, b, c, d], rfl, rfl⟩
  · cases read

theorem secondHalf_spec {first second : Nat} {text rest : List UInt8}
    (read : secondHalf first text = some (second, rest)) : ∃ raw, text = raw ++ rest := by
  unfold secondHalf at read
  split at read
  · rename_i c d text
    split at read
    · obtain ⟨⟨n, rest'⟩, digits, read⟩ := Option.bind_eq_some_iff.mp read
      dsimp only at read
      split at read
      · cases read
        obtain ⟨raw, rfl, -⟩ := unit_spec digits
        exact ⟨c :: d :: raw, rfl⟩
      · cases read
    · cases read
  · cases read

/-- An escape takes up more bytes than it stands for, also without its backslash. -/
theorem unicode_spec {text bytes rest : List UInt8} (read : unicode text = some (bytes, rest)) :
    ∃ raw, text = raw ++ rest ∧ bytes.length ≤ raw.length := by
  obtain ⟨⟨first, text'⟩, digits, point⟩ := Option.bind_eq_some_iff.mp read
  obtain ⟨raw, rfl, length⟩ := unit_spec digits
  dsimp only at point
  split at point
  · rename_i second rest' half
    rw [Option.some.injEq, Prod.mk.injEq] at point
    obtain ⟨rfl, rfl⟩ := point
    obtain ⟨raw', rfl⟩ := secondHalf_spec half
    refine ⟨raw ++ raw', by simp, Nat.le_trans (encode_length _) ?_⟩
    rw [List.length_append]
    omega
  · rw [Option.some.injEq, Prod.mk.injEq] at point
    obtain ⟨rfl, rfl⟩ := point
    exact ⟨raw, rfl, Nat.le_trans (encode_length _) (by omega)⟩

theorem escaped_spec {text bytes rest : List UInt8} (read : escaped text = some (bytes, rest)) :
    ∃ raw, text = raw ++ rest ∧ bytes.length ≤ raw.length := by
  cases text with
  | nil => cases read
  | cons c text =>
    rw [escaped] at read
    split at read
    · obtain ⟨raw, rfl, length⟩ := unicode_spec read
      exact ⟨c :: raw, rfl, by rw [List.length_cons]; omega⟩
    · obtain ⟨byte, -, eq⟩ := Option.map_eq_some_iff.mp read
      cases eq
      exact ⟨[c], rfl, Nat.le_refl 1⟩

/-- A character takes up more bytes than it stands for, or is plain. -/
theorem character_spec {text bytes rest : List UInt8} (no_quote : ∀ more, text ≠ quote :: more)
    (read : character text = some (bytes, rest)) :
    ∃ raw, text = raw ++ rest ∧ (bytes.length < raw.length ∨ bytes = raw ∧
      (∀ more, Utf8.valid [] (raw ++ more) = Utf8.valid [] more) ∧
      ∀ c ∈ raw, c ≠ quote ∧ c ≠ backslash ∧ 0x20 ≤ c) := by
  cases text with
  | nil => cases read
  | cons c text =>
    rw [character] at read
    split at read
    · obtain ⟨raw, rfl, length⟩ := escaped_spec read
      exact ⟨c :: raw, rfl, .inl (by rw [List.length_cons]; omega)⟩
    · rename_i other
      split at read
      · cases read
      · rename_i printable
        obtain ⟨c', tail, rfl, same, pays, high⟩ := Utf8.char_spec read
        obtain ⟨rfl, rfl⟩ := List.cons.inj same
        refine ⟨c :: tail, rfl, .inr ⟨rfl, pays, fun d member => ?_⟩⟩
        rcases List.mem_cons.mp member with rfl | member
        · exact ⟨fun is_quote => no_quote (tail ++ rest) (by rw [is_quote]; rfl), other,
            UInt8.not_lt.mp printable⟩
        · have high := high d member
          refine ⟨?_, ?_, UInt8.le_trans (by decide) high⟩
          · rintro rfl
            exact absurd high (by decide)
          · rintro rfl
            exact absurd high (by decide)

/-- A string takes up at least the bytes that it stands for and the closing quote, and no more only
if it is plain. -/
theorem characters_spec {fuel : Nat} {text bytes rest : List UInt8}
    (read : characters fuel text = some (bytes, rest)) :
    ∃ raw, text = raw ++ quote :: rest ∧
      (bytes.length < raw.length ∨ bytes = raw ∧ Plain raw) := by
  induction fuel generalizing text bytes with
  | zero => cases read
  | succ fuel ih =>
    cases text with
    | nil => cases read
    | cons c text =>
      rw [characters] at read
      split at read
      · rename_i is_quote
        cases read
        exact ⟨[], by rw [is_quote, List.nil_append], .inr ⟨rfl, plain_nil⟩⟩
      · rename_i no_quote
        obtain ⟨⟨bytes₁, text₁⟩, first, read⟩ := Option.bind_eq_some_iff.mp read
        obtain ⟨⟨bytes₂, rest₂⟩, others, read⟩ := Option.bind_eq_some_iff.mp read
        cases read
        obtain ⟨raw₁, same, one⟩ :=
          character_spec (fun more eq => no_quote (List.cons.inj eq).1) first
        obtain ⟨raw₂, rfl, all⟩ := ih others
        refine ⟨raw₁ ++ raw₂, by rw [same, List.append_assoc], ?_⟩
        rw [List.length_append, List.length_append]
        rcases one with less | ⟨rfl, pays, unescaped⟩
        · left
          rcases all with less' | ⟨rfl, -⟩ <;> omega
        · rcases all with less' | ⟨rfl, plain⟩
          · left
            omega
          · refine .inr ⟨rfl, (pays _).trans plain.valid, fun d member => ?_⟩
            rcases List.mem_append.mp member with first | later
            · exact unescaped d first
            · exact plain.unescaped d later

/-- A text that a string gives back is plain, where no later byte could have closed the string. -/
theorem plain_of_string {text tail rest : List UInt8} (last : quote ∉ tail)
    (itself : string (text ++ quote :: tail) = some (text, rest)) : Plain text := by
  obtain ⟨raw, same, less | ⟨rfl, plain⟩⟩ := characters_spec itself
  · -- The string would end at a quote after the text and the first quote behind it.
    obtain ⟨more, rfl⟩ : (text ++ [quote]) <+: raw := by
      refine List.prefix_of_prefix_length_le ⟨tail, by simp⟩ ⟨quote :: rest, same.symm⟩ ?_
      rw [List.length_append, List.length_singleton]
      omega
    simp only [List.append_assoc, List.cons_append, List.nil_append, List.append_cancel_left_eq,
      List.cons.injEq, true_and] at same
    exact absurd (same ▸ List.mem_append_right more List.mem_cons_self) last
  · exact plain

theorem characters_plain {fuel : Nat} {text : List UInt8} (plain : Plain text)
    (enough : text.length < fuel) (rest : List UInt8) :
    characters fuel (text ++ quote :: rest) = some (text, rest) := by
  induction fuel generalizing text with
  | zero => omega
  | succ fuel ih =>
    cases text with
    | nil => rw [List.nil_append, characters, if_pos rfl]
    | cons c text =>
      obtain ⟨no_quote, no_backslash, printable⟩ := plain.unescaped c List.mem_cons_self
      obtain ⟨tail, text', rfl, valid, reads⟩ := Utf8.char_valid plain.valid
      have first : character (c :: (tail ++ text') ++ quote :: rest) =
          some (c :: tail, text' ++ quote :: rest) := by
        rw [List.cons_append, character, if_neg no_backslash, if_neg (UInt8.not_lt.mpr printable),
          ← List.cons_append, reads]
      have plain' : Plain text' :=
        ⟨valid, fun d member => plain.unescaped d
          (List.mem_cons_of_mem _ (List.mem_append_right _ member))⟩
      have others := ih plain' (by
        simp only [List.length_cons, List.length_append] at enough
        omega)
      rw [List.cons_append, characters, if_neg no_quote, ← List.cons_append, first]
      dsimp only [Option.bind_eq_bind, Option.bind_some]
      rw [others]
      rfl

theorem string_plain {text : List UInt8} (plain : Plain text) (rest : List UInt8) :
    string (text ++ quote :: rest) = some (text, rest) := by
  apply characters_plain plain
  rw [List.length_append, List.length_cons]
  omega

/-! ### Members of objects -/

theorem value_string (fuel : Nat) (text : List UInt8) :
    value (fuel + 1) (quote :: text) =
      (string text).map fun read => (.string read.1, read.2) := by
  rw [value, if_pos rfl]

theorem value_object (fuel : Nat) (text : List UInt8) :
    value (fuel + 1) (123 :: quote :: text) =
      (members fuel (quote :: text)).map fun read => (.object read.1, read.2) := by
  have not_closed : next 125 (quote :: text) = none := rfl
  rw [value, if_neg (by decide), if_neg (by decide), if_pos rfl, not_closed]

theorem members_name {name : List UInt8} (plain : Plain name) (fuel : Nat) (text : List UInt8) :
    members (fuel + 1) (quote :: (name ++ quote :: 58 :: text)) =
      (value fuel (skip text)).bind fun read =>
        match next 44 read.2 with
        | some rest => (members fuel rest).map fun more => ((name, read.1) :: more.1, more.2)
        | none => (next 125 read.2).map fun rest => ([(name, read.1)], rest) := by
  have opening : next quote (quote :: (name ++ quote :: 58 :: text)) =
      some (name ++ quote :: 58 :: text) := rfl
  have colon : next 58 (58 :: text) = some text := rfl
  rw [members, opening]
  dsimp only [Option.bind_eq_bind, Option.bind_some]
  rw [string_plain plain]
  dsimp only [Option.bind_some]
  rw [colon, Option.bind_some]

theorem members_first {name : List UInt8} (plain : Plain name) {fuel : Nat}
    {text rest : List UInt8} {list : List (List UInt8 × Value)}
    (read : members fuel (quote :: (name ++ quote :: 58 :: text)) = some (list, rest)) :
    ∃ fuel' member after more, value fuel' (skip text) = some (member, after) ∧
      list = (name, member) :: more := by
  cases fuel with
  | zero => rw [members] at read; cases read
  | succ fuel =>
    rw [members_name plain] at read
    obtain ⟨⟨member, after⟩, first, read⟩ := Option.bind_eq_some_iff.mp read
    dsimp only at read
    split at read
    · obtain ⟨⟨more, rest'⟩, -, eq⟩ := Option.map_eq_some_iff.mp read
      cases eq
      exact ⟨fuel, member, after, more, first, rfl⟩
    · obtain ⟨rest', -, eq⟩ := Option.map_eq_some_iff.mp read
      cases eq
      exact ⟨fuel, member, after, [], first, rfl⟩

/-- An object's first member is the one that its name gives. -/
theorem member_first {name : List UInt8} {member other : Value}
    {more : List (List UInt8 × Value)}
    (found : (Value.object ((name, member) :: more)).member name = some other) :
    other = member := by
  rw [Value.member, List.filter_cons_of_pos (by simp)] at found
  split at found
  · rename_i only single
    rw [(List.cons.inj single).1.symm] at found
    exact (Option.some.inj found).symm
  · cases found

theorem object_first {name : List UInt8} (plain : Plain name) {fuel : Nat}
    {text rest : List UInt8} {object : Value}
    (read : value fuel (123 :: quote :: (name ++ quote :: 58 :: text)) = some (object, rest))
    {member : Value} (found : object.member name = some member) :
    ∃ fuel' after, value fuel' (skip text) = some (member, after) := by
  cases fuel with
  | zero => rw [value] at read; cases read
  | succ fuel =>
    rw [value_object] at read
    obtain ⟨⟨list, rest'⟩, listed, eq⟩ := Option.map_eq_some_iff.mp read
    cases eq
    obtain ⟨fuel', first, after, more, value_eq, rfl⟩ := members_first plain listed
    obtain rfl := member_first found
    exact ⟨fuel', after, value_eq⟩

end Json
