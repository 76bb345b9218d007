import Guardwatch.Mongoose.Parse

/-! Bodies in chunks: `mg_handle_chunked` joins the chunks in the receive buffer itself. -/

namespace Guardwatch.Mongoose

open CInput

def isxdigit (c : UInt8) : Bool :=
  isdigit c || decide (65 ≤ c ∧ c ≤ 70) || decide (97 ≤ c ∧ c ≤ 102)

/-- What a digit adds to `n` in the length of a chunk. -/
def hexDigitValue (c : UInt8) : Nat :=
  if 48 ≤ c ∧ c ≤ 57 then c.toNat - 48 else (tolower c).toNat - 97 + 10

def hexNumber (digits : List UInt8) : Nat := digits.foldl (fun n c => n * 16 + hexDigitValue c) 0

/-- `mg_http_parse_chunk`: the length of a chunk that is fully buffered, and its data. -/
def mgHttpParseChunk (buf : List UInt8) : Option (Nat × List UInt8) :=
  let digits := buf.takeWhile isxdigit
  let i := digits.length
  let n := hexNumber digits
  if i > 6 then none
  else if i = 0 ∨ (buf.drop i).take 2 ≠ [13, 10] then none
  else if (buf.drop (i + 2 + n)).take 2 ≠ [13, 10] then none
  else some (i + 2 + n + 2, (buf.drop (i + 2)).take n)

/-- `memmove(buf + place, data, data_len)`. -/
def memmove (buf : List UInt8) (place : Nat) (data : List UInt8) : List UInt8 :=
  buf.take place ++ data ++ buf.drop (place + data.length)

/-- The loop of `mg_handle_chunked`, at most `fuel` times: the buffer, `i`, `body_len` and
`zero_chunk_received`. -/
def traverseChunks : Nat → List UInt8 → Nat → Nat → List UInt8 × Nat × Nat × Bool
  | 0, buf, i, bodyLen => (buf, i, bodyLen, false)
  | fuel + 1, buf, i, bodyLen =>
    match mgHttpParseChunk (buf.drop i) with
    | none => (buf, i, bodyLen, false)
    | some (n, data) =>
      let buf := memmove buf bodyLen data
      if data.length = 0 then (buf, i + n, bodyLen + data.length, true)
      else traverseChunks fuel buf (i + n) (bodyLen + data.length)

/-- `mg_handle_chunked` on what is behind the head, where the first `bodyLen` bytes are reassembled:
what is behind the head then, the new `body_len`, and whether the last chunk was there. -/
def mgHandleChunked (buf : List UInt8) (bodyLen : Nat) : List UInt8 × Nat × Bool :=
  let (moved, i, newLen, zeroChunkReceived) := traverseChunks (buf.length + 1) buf bodyLen bodyLen
  if i > newLen then (moved.take newLen ++ moved.drop i, newLen, zeroChunkReceived)
  else (moved, bodyLen, false)

/-! ### Chunks -/

/-- A chunk as it is written. -/
structure Chunk where
  digits : List UInt8
  data : List UInt8
  hex : ∀ c ∈ digits, isxdigit c = true
  digits_ne : digits ≠ []
  short : digits.length ≤ 6
  size : hexNumber digits = data.length

def Chunk.bytes (chunk : Chunk) : List UInt8 :=
  chunk.digits ++ ([13, 10] ++ (chunk.data ++ [13, 10]))

theorem Chunk.bytes_length (chunk : Chunk) :
    chunk.bytes.length = chunk.digits.length + 2 + chunk.data.length + 2 := by
  simp only [Chunk.bytes, List.length_append, List.length_cons, List.length_nil]
  omega

theorem Chunk.digits_pos (chunk : Chunk) : 0 < chunk.digits.length :=
  List.length_pos_iff.mpr chunk.digits_ne

theorem parseChunk_bytes (chunk : Chunk) (more : List UInt8) :
    mgHttpParseChunk (chunk.bytes ++ more) = some (chunk.bytes.length, chunk.data) := by
  have text : chunk.bytes ++ more =
      chunk.digits ++ 13 :: 10 :: (chunk.data ++ 13 :: 10 :: more) := by
    simp [Chunk.bytes]
  have digits : (chunk.bytes ++ more).takeWhile isxdigit = chunk.digits := by
    rw [text, List.takeWhile_append_of_pos chunk.hex,
      List.takeWhile_cons_of_neg (by decide), List.append_nil]
  have behind : (chunk.bytes ++ more).drop chunk.digits.length =
      13 :: 10 :: (chunk.data ++ 13 :: 10 :: more) := by
    rw [text, List.drop_left]
  have data : (chunk.bytes ++ more).drop (chunk.digits.length + 2) =
      chunk.data ++ 13 :: 10 :: more := by
    rw [← List.drop_drop, behind]
    rfl
  have last : (chunk.bytes ++ more).drop (chunk.digits.length + 2 + chunk.data.length) =
      13 :: 10 :: more := by
    rw [← List.drop_drop, data, List.drop_left]
  have some_digits := chunk.digits_pos
  rw [mgHttpParseChunk, digits, chunk.size, if_neg (Nat.not_lt.mpr chunk.short), behind, data,
    last, if_neg, if_neg, List.take_left, ← chunk.bytes_length]
  · exact not_not.mpr rfl
  · rintro (none | other)
    · omega
    · exact other rfl

/-- What `mg_http_parse_chunk` takes is a chunk as it is written. -/
theorem parseChunk_some {s data : List UInt8} {n : Nat}
    (parsed : mgHttpParseChunk s = some (n, data)) :
    ∃ chunk : Chunk, chunk.data = data ∧ chunk.bytes.length = n ∧
      ∃ more, s = chunk.bytes ++ more := by
  rw [mgHttpParseChunk] at parsed
  split_ifs at parsed with long first last
  cases parsed
  generalize taken : s.takeWhile isxdigit = digits at long first last ⊢
  generalize size : hexNumber digits = n at last ⊢
  rw [not_or, not_not] at first
  rw [not_not] at last
  have hex : ∀ c ∈ digits, isxdigit c = true :=
    List.all_eq_true.mp (taken ▸ List.all_takeWhile)
  have crlf {t : List UInt8} (two : t.take 2 = [13, 10]) : t = [13, 10] ++ t.drop 2 := by
    rw [← two, List.take_append_drop]
  have front : s = digits ++ s.drop digits.length := by
    have taken_eq : digits = s.take digits.length :=
      List.prefix_iff_eq_take.mp (taken ▸ List.takeWhile_prefix _)
    conv_lhs => rw [← List.take_append_drop digits.length s, ← taken_eq]
  have second := crlf first.2
  have fourth := crlf last
  rw [List.drop_drop] at second fourth
  have third := (List.take_append_drop n (s.drop (digits.length + 2))).symm
  rw [List.drop_drop, fourth] at third
  have inside : 0 < (s.drop (digits.length + 2 + n)).length := by
    rw [fourth]
    simp
  have data_length : ((s.drop (digits.length + 2)).take n).length = n := by
    rw [List.length_drop] at inside
    rw [List.length_take, List.length_drop]
    omega
  let chunk : Chunk :=
    { digits
      data := (s.drop (digits.length + 2)).take n
      hex
      digits_ne := List.ne_nil_of_length_pos (Nat.pos_of_ne_zero first.1)
      short := Nat.not_lt.mp long
      size := size.trans data_length.symm }
  refine ⟨chunk, rfl, ?_, s.drop (digits.length + 2 + n + 2), ?_⟩
  · rw [chunk.bytes_length]
    show digits.length + 2 + ((s.drop (digits.length + 2)).take n).length + 2 = _
    rw [data_length]
  · conv_lhs => rw [front, second, third]
    simp only [Chunk.bytes, chunk, List.append_assoc]

/-! ### The joined body -/

/-- The data of the chunks in a text, what is behind them, and whether the last one is there. -/
inductive Dechunks : List UInt8 → List UInt8 → List UInt8 → Bool → Prop
  | stop {s : List UInt8} (parsed : mgHttpParseChunk s = none) : Dechunks s [] s false
  | last {s : List UInt8} {n : Nat} (parsed : mgHttpParseChunk s = some (n, [])) :
    Dechunks s [] (s.drop n) true
  | next {s data body rest : List UInt8} {n : Nat} {ended : Bool}
    (parsed : mgHttpParseChunk s = some (n, data)) (ne : data ≠ [])
    (further : Dechunks (s.drop n) body rest ended) : Dechunks s (data ++ body) rest ended

variable {s body rest : List UInt8} {ended : Bool}

/-- A chunk has more bytes than its data, and no more than there are. -/
theorem parseChunk_length {data : List UInt8} {n : Nat}
    (parsed : mgHttpParseChunk s = some (n, data)) : data.length < n ∧ n ≤ s.length := by
  obtain ⟨chunk, rfl, rfl, more, rfl⟩ := parseChunk_some parsed
  rw [List.length_append, chunk.bytes_length]
  exact ⟨by omega, Nat.le_add_right ..⟩

theorem Dechunks.unique (first : Dechunks s body rest ended) {body' rest' : List UInt8}
    {ended' : Bool} (second : Dechunks s body' rest' ended') :
    body = body' ∧ rest = rest' ∧ ended = ended' := by
  induction first generalizing body' rest' ended' with
  | stop parsed =>
    cases second with
    | stop => exact ⟨rfl, rfl, rfl⟩
    | last parsed' => cases parsed.symm.trans parsed'
    | next parsed' => cases parsed.symm.trans parsed'
  | last parsed =>
    cases second with
    | stop parsed' => cases parsed.symm.trans parsed'
    | last parsed' =>
      cases parsed.symm.trans parsed'
      exact ⟨rfl, rfl, rfl⟩
    | next parsed' ne =>
      cases parsed.symm.trans parsed'
      exact absurd rfl ne
  | next parsed ne further ih =>
    cases second with
    | stop parsed' => cases parsed.symm.trans parsed'
    | last parsed' =>
      cases parsed.symm.trans parsed'
      exact absurd rfl ne
    | next parsed' ne' further' =>
      cases parsed.symm.trans parsed'
      obtain ⟨rfl, rfl, rfl⟩ := ih further'
      exact ⟨rfl, rfl, rfl⟩

/-- More bytes do not change a chunk that is there. -/
theorem parseChunk_append {data : List UInt8} {n : Nat}
    (parsed : mgHttpParseChunk s = some (n, data)) (more : List UInt8) :
    mgHttpParseChunk (s ++ more) = some (n, data) := by
  obtain ⟨chunk, rfl, rfl, behind, rfl⟩ := parseChunk_some parsed
  rw [List.append_assoc, parseChunk_bytes]

/-- The rest goes on where more bytes come. -/
theorem Dechunks.append (first : Dechunks s body rest false) {more body' rest' : List UInt8}
    (second : Dechunks (rest ++ more) body' rest' ended) :
    Dechunks (s ++ more) (body ++ body') rest' ended := by
  generalize going : false = goes at first
  induction first with
  | stop => exact second
  | last => cases going
  | next parsed ne further ih =>
    rw [List.append_assoc]
    refine .next (parseChunk_append parsed more) ne ?_
    rw [List.drop_append_of_le_length (parseChunk_length parsed).2]
    exact ih second going

section Memmove

variable {buf data : List UInt8} {place : Nat} (fits : place + data.length ≤ buf.length)
include fits

end Memmove

/-- Chunks with data, and the last one. -/
structure ChunkedBody where
  chunks : List Chunk
  full : ∀ chunk ∈ chunks, chunk.data ≠ []
  last : Chunk
  last_empty : last.data = []

def ChunkedBody.bytes (b : ChunkedBody) : List UInt8 :=
  (b.chunks ++ [b.last]).flatMap Chunk.bytes

def ChunkedBody.data (b : ChunkedBody) : List UInt8 := b.chunks.flatMap Chunk.data

end Guardwatch.Mongoose
