import Mathlib.Data.List.Basic

/-! String literals of SQL: a text between single quotes, in which a doubled quote stands for
one. -/

namespace SqlLiteral

def quote : UInt8 := 39

/-- The value of the literal whose opening quote comes before the text, and what follows the
literal; `none` where no quote closes it. -/
def literal : List UInt8 → Option (List UInt8 × List UInt8)
  | [] => none
  | [c] => if c = quote then some ([], []) else none
  | c :: d :: rest =>
    if c = quote then
      if d = quote then (literal rest).map fun read => (quote :: read.1, read.2)
      else some ([], d :: rest)
    else (literal (d :: rest)).map fun read => (c :: read.1, read.2)

theorem literal_quote {next : UInt8} (other : next ≠ quote) (rest : List UInt8) :
    literal (quote :: next :: rest) = some ([], next :: rest) := by
  rw [literal, if_pos rfl, if_neg other]

theorem literal_other {c : UInt8} (other : c ≠ quote) (rest : List UInt8) :
    literal (c :: rest) = (literal rest).map fun read => (c :: read.1, read.2) := by
  cases rest with
  | nil => simp [literal, other]
  | cons d rest => rw [literal, if_neg other]

/-- A text without quotes is its own value. -/
theorem literal_plain {text : List UInt8} (plain : quote ∉ text) {next : UInt8}
    (other : next ≠ quote) (rest : List UInt8) :
    literal (text ++ quote :: next :: rest) = some (text, next :: rest) := by
  induction text with
  | nil => exact literal_quote other rest
  | cons c text ih =>
    rw [List.mem_cons, not_or] at plain
    rw [List.cons_append, literal_other (Ne.symm plain.1), ih plain.2]
    rfl

/-- The bytes that a literal takes up: its value with each quote doubled, and the closing quote. -/
theorem literal_spec (text : List UInt8) {value left : List UInt8}
    (read : literal text = some (value, left)) :
    ∃ raw, text = raw ++ left ∧ raw.length = value.length + value.count quote + 1 ∧
      raw.count quote = 2 * value.count quote + 1 := by
  fun_induction literal text generalizing value with
  | case1 => cases read
  | case2 =>
    cases read
    exact ⟨[quote], rfl, rfl, by simp⟩
  | case3 => cases read
  | case4 rest ih =>
    obtain ⟨⟨value', left'⟩, tail, eq⟩ := Option.map_eq_some_iff.mp read
    cases eq
    obtain ⟨raw, rfl, length, count⟩ := ih tail
    refine ⟨quote :: quote :: raw, rfl, ?_, ?_⟩
    · simp only [List.length_cons, length, List.count_cons_self]
      omega
    · simp only [List.count_cons_self, count]
      omega
  | case5 d rest other =>
    cases read
    exact ⟨[quote], rfl, rfl, by simp⟩
  | case6 c d rest other ih =>
    obtain ⟨⟨value', left'⟩, tail, eq⟩ := Option.map_eq_some_iff.mp read
    cases eq
    obtain ⟨raw, same, length, count⟩ := ih tail
    refine ⟨c :: raw, by rw [same, List.cons_append], ?_, ?_⟩
    · simp only [List.length_cons, length, List.count_cons_of_ne other]
      omega
    · simp only [List.count_cons_of_ne other, count]

/-- A text that is read as itself has no quotes: with `k` of them the literal would take up `k`
bytes more than the text and the closing quote, and `2 * k + 1` quotes, of which at most `2 * k`
are there. -/
theorem plain_of_literal {text rest left : List UInt8} {next : UInt8} (other : next ≠ quote)
    (read : literal (text ++ quote :: next :: rest) = some (text, left)) : quote ∉ text := by
  obtain ⟨raw, same, length, count⟩ := literal_spec _ read
  intro member
  have some_quote : 0 < text.count quote := List.count_pos_iff.mpr member
  obtain ⟨more, rfl⟩ : (text ++ [quote, next]) <+: raw := by
    refine List.prefix_of_prefix_length_le ⟨rest, by simp⟩ ⟨left, same.symm⟩ ?_
    simp only [List.length_append, List.length_cons, List.length_nil, length]
    omega
  have few := List.count_le_length (a := quote) (l := more)
  simp only [List.length_append, List.length_cons, List.length_nil] at length
  simp only [List.count_append, List.count_cons_self, List.count_cons_of_ne other,
    List.count_nil] at count
  omega

end SqlLiteral
