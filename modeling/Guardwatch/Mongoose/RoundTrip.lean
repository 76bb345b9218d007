import Mathlib.Data.List.TakeWhile
import Guardwatch.Mongoose.Framing

/-! Well-formed requests are read as they were written. -/

namespace Guardwatch.Mongoose

open CInput

def isgraph (c : UInt8) : Bool := decide (33 ≤ c ∧ c ≤ 126)

/-- A byte of a header's name. -/
def isname (c : UInt8) : Bool := isgraph c && c != 58

/-- A byte of a header's value. -/
def isvalue (c : UInt8) : Bool := decide (32 ≤ c ∧ c ≠ 127)

/-- The name begins like the one of the length, in any case. -/
def namesLength (name : List UInt8) : Bool := mgNcasecmp name contentLengthName

/-- A header; one with a length has it in decimal digits. -/
structure Header where
  name : List UInt8
  value : List UInt8
  name_bytes : ∀ c ∈ name, isname c = true
  name_ne : name ≠ []
  value_bytes : ∀ c ∈ value, isvalue c = true
  value_first : ∀ c, value.head? = some c → c ≠ 32 ∧ c ≠ 58
  value_last : ∀ c, value.getLast? = some c → c ≠ 32
  value_ne : value ≠ []
  number : namesLength name = true →
    (∀ c ∈ value, isdigit c = true) ∧ decimal value < 2 ^ 63

/-- A request line and headers. -/
structure RequestText where
  method : List UInt8
  uri : List UInt8
  proto : List UInt8
  headers : List Header
  method_graph : ∀ c ∈ method, isgraph c = true
  method_ne : method ≠ []
  uri_graph : ∀ c ∈ uri, isgraph c = true
  uri_ne : uri ≠ []
  proto_graph : ∀ c ∈ proto, isgraph c = true
  proto_ne : proto ≠ []
  few : headers.length < mgMaxHttpHeaders

def crlf : List UInt8 := [13, 10]

/-- The headers and the blank line. -/
def fieldsText : List Header → List UInt8
  | [] => crlf
  | h :: hs => h.name ++ ([58, 32] ++ (h.value ++ (crlf ++ fieldsText hs)))

def RequestText.text (r : RequestText) : List UInt8 :=
  r.method ++ ([32] ++ (r.uri ++ ([32] ++ (r.proto ++ (crlf ++ fieldsText r.headers)))))

/-- The sizes behind the headers: the last one with a length counts. -/
def sizesOf (len : Nat) : List Header → HttpSizes → HttpSizes
  | [], sizes => sizes
  | h :: hs, sizes =>
    sizesOf len hs
      (if namesLength h.name then
        ⟨decimal h.value, (len + decimal h.value) % 2 ^ 64, decimal h.value⟩
      else sizes)

/-! ### Heads -/

variable {i : Nat} {s text token behind delims : List UInt8}

theorem getRequestLen_line (good : ∀ c ∈ text, badByte c = false ∧ c ≠ 10) :
    mgHttpGetRequestLen i (text ++ s) = mgHttpGetRequestLen (i + text.length) s := by
  induction text generalizing i with
  | nil => rfl
  | cons c text ih =>
    rw [List.forall_mem_cons] at good
    have inside : blankLine (c :: (text ++ s)) = none := by
      match text ++ s with
      | [] => rfl
      | d :: s => simp [blankLine, good.1.2]
    rw [List.cons_append, getRequestLen_cons, good.1.1, if_neg Bool.false_ne_true, inside]
    dsimp only
    rw [ih good.2, List.length_cons, Nat.add_right_comm, Nat.add_assoc]

/-- A line behind an end of line. -/
theorem getRequestLen_next {c : UInt8} (graph : isgraph c = true) :
    mgHttpGetRequestLen i (crlf ++ c :: s) = mgHttpGetRequestLen (i + 2) (c :: s) := by
  rw [isgraph, decide_eq_true_eq] at graph
  have other : c ≠ 10 ∧ c ≠ 13 := by
    constructor <;> rintro rfl <;> exact absurd graph.1 (by decide)
  have first : blankLine (13 :: 10 :: c :: s) = none := by simp [blankLine]
  have second : blankLine (10 :: c :: s) = none := by simp [blankLine, other]
  rw [crlf, List.cons_append, List.cons_append, List.nil_append, getRequestLen_cons, first,
    if_neg (by decide)]
  dsimp only
  rw [getRequestLen_cons, second, if_neg (by decide)]

theorem good_value {c : UInt8} (value : isvalue c = true) : badByte c = false ∧ c ≠ 10 := by
  rw [isvalue, decide_eq_true_eq] at value
  constructor
  · by_cases low : c ≤ 126
    · simp [badByte, isprint, value.1, low]
    · have high : ¬c < 128 := by
        have := value.2
        rw [UInt8.le_iff_toNat_le] at low
        rw [UInt8.lt_iff_toNat_lt]
        rw [ne_eq, ← UInt8.toNat_inj] at this
        simp at *
        omega
      simp [badByte, high]
  · rintro rfl
    exact absurd value.1 (by decide)

theorem isgraph_value {c : UInt8} (graph : isgraph c = true) : isvalue c = true := by
  rw [isgraph, decide_eq_true_eq, UInt8.le_iff_toNat_le, UInt8.le_iff_toNat_le] at graph
  rw [isvalue, decide_eq_true_eq, UInt8.le_iff_toNat_le, ne_eq, ← UInt8.toNat_inj]
  simp at *
  omega

theorem isname_graph {c : UInt8} (name : isname c = true) : isgraph c = true ∧ c ≠ 58 := by
  rwa [isname, Bool.and_eq_true, bne_iff_ne] at name

theorem good_graph {c : UInt8} (graph : isgraph c = true) : badByte c = false ∧ c ≠ 10 :=
  good_value (isgraph_value graph)

/-- The head ends with its blank line. -/
theorem getRequestLen_fields (hs : List Header) :
    mgHttpGetRequestLen i (crlf ++ fieldsText hs) = (i : Int) + 2 + (fieldsText hs).length := by
  induction hs generalizing i with
  | nil =>
    rw [fieldsText, crlf, List.cons_append, getRequestLen_cons, if_neg (by decide)]
    show mgHttpGetRequestLen (i + 1) [10, 13, 10] = _
    rw [getRequestLen_cons, if_neg (by decide)]
    show ((i + 1 : Nat) : Int) + (3 : Nat) = (i : Int) + 2 + (2 : Nat)
    omega
  | cons h hs ih =>
    have good : ∀ c ∈ h.name ++ ([58, 32] ++ h.value), badByte c = false ∧ c ≠ 10 := by
      intro c mem
      rcases List.mem_append.mp mem with name | mem
      · exact good_graph (isname_graph (h.name_bytes c name)).1
      · rcases List.mem_append.mp mem with between | value
        · rcases List.mem_pair.mp between with rfl | rfl <;> decide
        · exact good_value (h.value_bytes c value)
    have line : fieldsText (h :: hs) =
        (h.name ++ ([58, 32] ++ h.value)) ++ (crlf ++ fieldsText hs) := by
      simp [fieldsText]
    obtain ⟨c, name, eq⟩ := List.exists_cons_of_ne_nil h.name_ne
    have graph : isgraph c = true :=
      (isname_graph (h.name_bytes c (by rw [eq]; exact List.mem_cons_self))).1
    have next : mgHttpGetRequestLen i (crlf ++ fieldsText (h :: hs)) =
        mgHttpGetRequestLen (i + 2) (fieldsText (h :: hs)) := by
      rw [fieldsText, eq, List.cons_append]
      exact getRequestLen_next graph
    rw [next, line, getRequestLen_line good, ih]
    simp only [List.length_append, crlf, List.length_cons, List.length_nil]
    omega

theorem RequestText.requestLen (r : RequestText) :
    mgHttpGetRequestLen 0 r.text = r.text.length := by
  have good : ∀ c ∈ r.method ++ ([32] ++ (r.uri ++ ([32] ++ r.proto))),
      badByte c = false ∧ c ≠ 10 := by
    intro c mem
    simp only [List.mem_append, List.mem_singleton] at mem
    rcases mem with method | rfl | uri | rfl | proto
    · exact good_graph (r.method_graph c method)
    · decide
    · exact good_graph (r.uri_graph c uri)
    · decide
    · exact good_graph (r.proto_graph c proto)
  have line : r.text =
      (r.method ++ ([32] ++ (r.uri ++ ([32] ++ r.proto)))) ++ (crlf ++ fieldsText r.headers) := by
    simp [RequestText.text]
  rw [line, getRequestLen_line good, getRequestLen_fields]
  simp only [List.length_append, crlf, List.length_cons, List.length_nil]
  omega

/-! ### Tokens -/

/-- A token, delimiters, and a text that does not begin with one. -/
theorem mgSkip_append (inside : ∀ c ∈ token, isDelim delims c = false)
    (between : ∀ c ∈ behind, isDelim delims c = true) (ne : behind ≠ [])
    (next : ∀ c, s.head? = some c → isDelim delims c = false) :
    mgSkip delims (token ++ (behind ++ s)) = (⟨token ++ (behind ++ s), token.length⟩, s) := by
  obtain ⟨d, behind, rfl⟩ := List.exists_cons_of_ne_nil ne
  have token_ends : (token ++ (d :: behind ++ s)).takeWhile (!isDelim delims ·) = token := by
    rw [List.takeWhile_append_of_pos (by simpa using inside), List.cons_append,
      List.takeWhile_cons_of_neg (by simp [between d List.mem_cons_self]), List.append_nil]
  have skipped : (d :: behind ++ s).dropWhile (isDelim delims) = s := by
    rw [List.dropWhile_append_of_pos between]
    cases s with
    | nil => rfl
    | cons c s => exact List.dropWhile_cons_of_neg (by simp [next c rfl])
  rw [mgSkip, token_ends, List.drop_left, skipped]

/-- What is behind a line: the headers, or nothing. -/
def behindLine : List Header → List UInt8
  | [] => []
  | h :: hs => fieldsText (h :: hs)

theorem inLine {c : UInt8} (value : isvalue c = true) : isDelim [13, 10] c = false := by
  rw [isvalue, decide_eq_true_eq] at value
  have other (d : UInt8) (low : ¬32 ≤ d) : c ≠ d := by
    rintro rfl
    exact low value.1
  simp [isDelim, other 0 (by decide), other 13 (by decide), other 10 (by decide)]

/-- The end of a line, and the blank line when it is the last one. -/
theorem mgSkip_line (hs : List Header) (inside : ∀ c ∈ token, isvalue c = true) :
    mgSkip [13, 10] (token ++ (crlf ++ fieldsText hs)) =
      (⟨token ++ (crlf ++ fieldsText hs), token.length⟩, behindLine hs) := by
  have inside : ∀ c ∈ token, isDelim [13, 10] c = false := fun c mem => inLine (inside c mem)
  cases hs with
  | nil =>
    have both : mgSkip [13, 10] (token ++ (crlf ++ crlf ++ [])) =
        (⟨token ++ (crlf ++ crlf ++ []), token.length⟩, []) :=
      mgSkip_append inside (by simp [crlf, isDelim]) (by decide) (by simp)
    simpa [fieldsText, behindLine] using both
  | cons h hs =>
    refine mgSkip_append inside (by simp [crlf, isDelim]) (by decide) ?_
    intro c first
    obtain ⟨d, name, eq⟩ := List.exists_cons_of_ne_nil h.name_ne
    have graph := (isname_graph (h.name_bytes d (by rw [eq]; exact List.mem_cons_self))).1
    have same : d = c := by simpa [fieldsText, eq] using first
    exact inLine (isgraph_value (same ▸ graph))

/-! ### Headers -/

/-- A name is compared as if nothing was behind it. -/
theorem mgNcasecmp_name (name behind : List UInt8) :
    mgNcasecmp (name ++ 58 :: behind) contentLengthName = namesLength name := by
  by_cases long : contentLengthName.length ≤ name.length
  · rw [mgNcasecmp, namesLength, mgNcasecmp, List.take_append_of_le_length long]
  · have colon : 58 ∈ (name ++ 58 :: behind).take contentLengthName.length := by
      rw [List.take_append, List.mem_append]
      obtain ⟨n, left⟩ : ∃ n, contentLengthName.length - name.length = n + 1 :=
        ⟨contentLengthName.length - name.length - 1, by omega⟩
      rw [left, List.take_succ_cons]
      exact .inr List.mem_cons_self
    have other : mgNcasecmp (name ++ 58 :: behind) contentLengthName = false := by
      rw [mgNcasecmp, beq_eq_false_iff_ne]
      intro same
      have : tolower 58 ∈ contentLengthName.map tolower := same ▸ List.mem_map_of_mem colon
      exact absurd this (by decide)
    have short : namesLength name = false := by
      rw [namesLength, mgNcasecmp, beq_eq_false_iff_ne]
      intro same
      have := congrArg List.length same
      simp only [List.length_map, List.length_take] at this
      omega
    rw [other, short]

theorem trimValue_value {value : List UInt8} (last : ∀ c, value.getLast? = some c → c ≠ 32) :
    trimValue ⟨value ++ behind, value.length⟩ = ⟨value ++ behind, value.length⟩ := by
  have bytes : Token.bytes ⟨value ++ behind, value.length⟩ = value := List.take_left
  have trimmed : value.reverse.dropWhile (· = 32) = value.reverse := by
    cases eq : value.reverse with
    | nil => rfl
    | cons c front =>
      have isLast : value.getLast? = some c := by
        rw [← List.head?_reverse, eq]
        rfl
      exact List.dropWhile_cons_of_neg (by simp [last c isLast])
  rw [trimValue, bytes, trimmed, List.length_reverse]

/-- A number up to the end of its line. -/
theorem to64_digits {value : List UInt8} (ne : value ≠ [])
    (digits : ∀ c ∈ value, isdigit c = true) (small : decimal value < 2 ^ 63) :
    to64 (value ++ (crlf ++ behind)) = decimal value :=
  strtoll_digits digits ne small (by decide)

/-- One header. -/
theorem header_read (len : Nat) (h : Header) (sizes : HttpSizes) (behind next : List UInt8) :
    headerSizes len ⟨h.name ++ 58 :: behind, h.name.length⟩
        ⟨h.value ++ (crlf ++ next), h.value.length⟩ sizes =
      if namesLength h.name then
        ⟨decimal h.value, (len + decimal h.value) % 2 ^ 64, decimal h.value⟩ else sizes := by
  rw [headerSizes, mgNcasecmp_name]
  split
  · rename_i number
    obtain ⟨digits, small⟩ := h.number number
    rw [to64_digits h.value_ne digits small]
    have wrapped : ((decimal h.value : Int) % 2 ^ 64).toNat = decimal h.value := by omega
    rw [wrapped]
  · rfl

/-- The name of a header ends at the colon, and the blank behind that is skipped. -/
theorem mgSkip_name (h : Header) (hs : List Header) :
    mgSkip [58, 32] (behindLine (h :: hs)) =
      (⟨behindLine (h :: hs), h.name.length⟩, h.value ++ (crlf ++ fieldsText hs)) := by
  refine mgSkip_append ?_ (by simp [isDelim]) (by decide) ?_
  · intro c mem
    obtain ⟨graph, colon⟩ := isname_graph (h.name_bytes c mem)
    rw [isgraph, decide_eq_true_eq] at graph
    have other (d : UInt8) (low : ¬33 ≤ d) : c ≠ d := by
      rintro rfl
      exact low graph.1
    simp [isDelim, colon, other 0 (by decide), other 32 (by decide)]
  · intro c first
    obtain ⟨d, value, eq⟩ := List.exists_cons_of_ne_nil h.value_ne
    obtain rfl : d = c := by simpa [eq] using first
    obtain ⟨blank, colon⟩ := h.value_first d (by rw [eq]; rfl)
    have value := h.value_bytes d (by rw [eq]; exact List.mem_cons_self)
    have zero : d ≠ 0 := by
      rintro rfl
      cases value
    simp [isDelim, blank, colon, zero]

/-- The headers are read in their order, and nothing behind the blank line. -/
theorem parseHeaders_fields {len fuel room : Nat} {sizes : HttpSizes} (hs : List Header)
    (enough : hs.length < fuel) (few : hs.length ≤ room) :
    ∃ tokens, mgHttpParseHeaders len fuel room (behindLine hs) sizes =
        (tokens, sizesOf len hs sizes) ∧
      tokens.map (fun header => (header.1.bytes, header.2.bytes)) =
        hs.map (fun h => (h.name, h.value)) := by
  obtain ⟨fuel, rfl⟩ : ∃ less, fuel = less + 1 := ⟨fuel - 1, by omega⟩
  induction hs generalizing fuel room sizes with
  | nil =>
    refine ⟨[], ?_, rfl⟩
    cases room <;> rfl
  | cons h hs ih =>
    have name := mgSkip_name h hs
    have line := mgSkip_line hs h.value_bytes
    have trimmed : trimValue ⟨h.value ++ (crlf ++ fieldsText hs), h.value.length⟩ =
        ⟨h.value ++ (crlf ++ fieldsText hs), h.value.length⟩ := trimValue_value h.value_last
    have name_ne : h.name.length ≠ 0 := by simpa using h.name_ne
    have value_ne : h.value.length ≠ 0 := by simpa using h.value_ne
    rw [List.length_cons] at enough few
    obtain ⟨room, rfl⟩ : ∃ less, room = less + 1 := ⟨room - 1, by omega⟩
    obtain ⟨fuel, rfl⟩ : ∃ less, fuel = less + 1 := ⟨fuel - 1, by omega⟩
    obtain ⟨tokens, parsed, texts⟩ := @ih room
      (if namesLength h.name then
        ⟨decimal h.value, (len + decimal h.value) % 2 ^ 64, decimal h.value⟩ else sizes)
      (by omega) fuel (by omega)
    refine ⟨(⟨behindLine (h :: hs), h.name.length⟩,
      ⟨h.value ++ (crlf ++ fieldsText hs), h.value.length⟩) :: tokens, ?_, ?_⟩
    · have sized := header_read len h sizes (32 :: (h.value ++ (crlf ++ fieldsText hs)))
        (fieldsText hs)
      rw [mgHttpParseHeaders, name]
      dsimp only
      rw [line]
      dsimp only
      rw [trimmed, if_neg (by simp [value_ne]), if_neg (by simp [name_ne, value_ne])]
      have next : headerSizes len ⟨behindLine (h :: hs), h.name.length⟩
          ⟨h.value ++ (crlf ++ fieldsText hs), h.value.length⟩ sizes = _ := sized
      rw [next, parsed]
      rfl
    · rw [List.map_cons, texts, List.map_cons]
      congr 2
      · exact List.take_left
      · exact List.take_left

/-! ### Requests -/

/-- The bytes from the first question mark on, without it. -/
def queryOf (uri : List UInt8) : Option (List UInt8) :=
  if 63 ∈ uri then some (uri.dropWhile (· ≠ 63)).tail else none

/-- The header that says the length, the last one if there are more. -/
def lengthHeader (hs : List Header) : Option Header :=
  (hs.filter fun h => namesLength h.name).getLast?

/-- `PUT` or `POST`, in any case. -/
def RequestText.sends (r : RequestText) : Bool :=
  r.method.map tolower == methodPut.map tolower || r.method.map tolower == methodPost.map tolower

/-- Without a length, a body that is sent goes on until the end, and there is no other one. -/
def RequestText.sizes (r : RequestText) : HttpSizes :=
  match lengthHeader r.headers with
  | some h =>
    let n := decimal h.value
    ⟨n, (r.text.length + n) % 2 ^ 64, n⟩
  | none => if r.sends then ⟨sizeMax, sizeMax, sizeMax⟩ else ⟨0, r.text.length, sizeMax⟩

/-- What is read is what was written. -/
structure Reads (r : RequestText) (hm : HttpHead) : Prop where
  method : hm.method.bytes = r.method
  uri : hm.uri.bytes = r.uri.takeWhile (· ≠ 63)
  queryString : hm.queryString.map Token.bytes = queryOf r.uri
  proto : hm.proto.bytes = r.proto
  headers : hm.headers.map (fun header => (header.1.bytes, header.2.bytes)) =
    r.headers.map (fun h => (h.name, h.value))
  sizes : hm.sizes = r.sizes

theorem sizesOf_length (len : Nat) (hs : List Header) (sizes : HttpSizes) :
    sizesOf len hs sizes =
      match lengthHeader hs with
      | some h => ⟨decimal h.value, (len + decimal h.value) % 2 ^ 64, decimal h.value⟩
      | none => sizes := by
  induction hs generalizing sizes with
  | nil => rfl
  | cons h hs ih =>
    rw [sizesOf, ih]
    by_cases number : namesLength h.name = true
    · rw [if_pos number]
      cases last : lengthHeader hs with
      | none =>
        rw [lengthHeader, List.getLast?_eq_none_iff] at last
        simp [lengthHeader, number, last]
      | some g =>
        rw [lengthHeader] at last
        simp [lengthHeader, number, List.getLast?_cons, last]
    · have same : lengthHeader (h :: hs) = lengthHeader hs := by
        simp [lengthHeader, number]
      rw [if_neg number, same]

theorem lengthHeader_small {hs : List Header} {h : Header} (last : lengthHeader hs = some h) :
    decimal h.value < 2 ^ 63 := by
  have mem := List.mem_filter.mp (List.mem_of_getLast? last)
  exact (h.number mem.2).2

theorem splitQuery_bytes (uri behind : List UInt8) :
    (splitQuery ⟨uri ++ behind, uri.length⟩).1.bytes = uri.takeWhile (· ≠ 63) ∧
      (splitQuery ⟨uri ++ behind, uri.length⟩).2.map Token.bytes = queryOf uri := by
  have bytes : Token.bytes ⟨uri ++ behind, uri.length⟩ = uri := List.take_left
  by_cases mark : 63 ∈ uri
  · obtain ⟨path, query, rfl, first⟩ := List.eq_append_cons_of_mem mark
    have inside : ∀ c ∈ path, decide (c ≠ 63) = true := by
      intro c mem
      rw [decide_eq_true_eq]
      rintro rfl
      exact first mem
    have front : (path ++ 63 :: query).takeWhile (· ≠ 63) = path :=
      CText.takeWhile_stop inside rfl
    have back : (path ++ 63 :: query).dropWhile (· ≠ 63) = 63 :: query := by
      rw [List.dropWhile_append_of_pos inside]
      rfl
    rw [splitQuery, bytes, front, queryOf, if_pos mark, back]
    dsimp only
    rw [if_neg (by simp)]
    constructor
    · simp [Token.bytes, List.append_assoc]
    · have split : path ++ 63 :: query ++ behind = (path ++ [63]) ++ (query ++ behind) := by simp
      have length : (path ++ 63 :: query).length - (path.length + 1) = query.length := by
        simp only [List.length_append, List.length_cons]
        omega
      have drop : (path ++ 63 :: query ++ behind).drop (path.length + 1) = query ++ behind := by
        rw [split]
        exact List.drop_left' (by simp)
      rw [Option.map_some, Token.bytes, drop, length, List.take_left, List.tail_cons]
  · have whole : uri.takeWhile (· ≠ 63) = uri := by
      rw [List.takeWhile_eq_self_iff]
      intro c mem
      rw [decide_eq_true_eq]
      rintro rfl
      exact mark mem
    rw [splitQuery, bytes, whole, queryOf, if_neg mark]
    dsimp only
    rw [if_pos rfl]
    exact ⟨bytes, rfl⟩

theorem isgraph_solid {c : UInt8} (graph : isgraph c = true) :
    isspace c = false ∧ isDelim [32] c = false := by
  rw [isgraph, decide_eq_true_eq] at graph
  have other (d : UInt8) (low : ¬33 ≤ d) : c ≠ d := by
    rintro rfl
    exact low graph.1
  have high : ¬c ≤ 13 := by
    intro low
    exact absurd (UInt8.le_trans graph.1 low) (by decide)
  constructor
  · simp [isspace, other 32 (by decide), high]
  · simp [isDelim, other 0 (by decide), other 32 (by decide)]

/-- A word and the space behind it. -/
theorem mgSkip_word {word s : List UInt8} (inside : ∀ c ∈ word, isgraph c = true)
    (next : ∀ c, s.head? = some c → isgraph c = true) :
    mgSkip [32] (word ++ ([32] ++ s)) = (⟨word ++ ([32] ++ s), word.length⟩, s) :=
  mgSkip_append (fun c mem => (isgraph_solid (inside c mem)).2) (by simp [isDelim]) (by decide)
    (fun c first => (isgraph_solid (next c first)).2)

/-- The first byte of a text that begins with a word. -/
theorem head_word {word s : List UInt8} (ne : word ≠ []) (inside : ∀ c ∈ word, isgraph c = true) :
    ∀ c, (word ++ s).head? = some c → isgraph c = true := by
  intro c first
  obtain ⟨d, word, rfl⟩ := List.exists_cons_of_ne_nil ne
  obtain rfl : d = c := by simpa using first
  exact inside d List.mem_cons_self

/-- What a method says about a body without a length. -/
theorem defaultSizes_text (r : RequestText) {method : Token} (bytes : method.bytes = r.method) :
    defaultSizes r.text.length method
        (sizesOf r.text.length r.headers ⟨sizeMax, sizeMax, sizeMax⟩) = r.sizes := by
  rw [sizesOf_length, RequestText.sizes, defaultSizes, mgVcasecmp, mgVcasecmp, bytes]
  cases last : lengthHeader r.headers with
  | some h =>
    have small := lengthHeader_small last
    dsimp only
    rw [if_neg]
    rintro ⟨unknown, -⟩
    rw [unknown] at small
    exact absurd small (by decide)
  | none =>
    dsimp only
    by_cases put : (r.method.map tolower == methodPut.map tolower) = true
    · simp [RequestText.sends, put]
    · by_cases post : (r.method.map tolower == methodPost.map tolower) = true <;>
        simp [RequestText.sends, put, post]

theorem fieldsText_long (hs : List Header) : hs.length < (fieldsText hs).length := by
  induction hs with
  | nil => decide
  | cons h hs ih =>
    simp only [fieldsText, List.length_append, List.length_cons]
    omega

theorem behindLine_long (hs : List Header) : hs.length < (behindLine hs).length + 1 := by
  cases hs with
  | nil => exact Nat.one_pos
  | cons h hs => exact Nat.lt_succ_of_lt (fieldsText_long (h :: hs))

/-- The head is read as it was written. -/
theorem parseHead_text (r : RequestText) :
    ∃ hm, parseHead r.text = .request r.text.length hm ∧ Reads r hm := by
  have front : r.text.dropWhile isspace = r.text := by
    obtain ⟨c, method, eq⟩ := List.exists_cons_of_ne_nil r.method_ne
    have graph := r.method_graph c (by rw [eq]; exact List.mem_cons_self)
    rw [RequestText.text, eq, List.cons_append]
    exact List.dropWhile_cons_of_neg (by simp [(isgraph_solid graph).1])
  let protoText := r.proto ++ (crlf ++ fieldsText r.headers)
  let uriText := r.uri ++ ([32] ++ protoText)
  have method : mgSkip [32] r.text = (⟨r.text, r.method.length⟩, uriText) :=
    mgSkip_word r.method_graph (head_word r.uri_ne r.uri_graph)
  have uri : mgSkip [32] uriText = (⟨uriText, r.uri.length⟩, protoText) :=
    mgSkip_word r.uri_graph (head_word r.proto_ne r.proto_graph)
  have proto : mgSkip [13, 10] protoText = (⟨protoText, r.proto.length⟩, behindLine r.headers) :=
    mgSkip_line r.headers (fun c mem => isgraph_value (r.proto_graph c mem))
  have text_ne : r.text ≠ [] := by simp [RequestText.text, r.method_ne]
  have uri_ne : uriText ≠ [] := by simp [uriText, r.uri_ne]
  obtain ⟨tokens, headers, texts⟩ := parseHeaders_fields
    r.headers (behindLine_long r.headers)
    (Nat.le_sub_one_of_lt r.few)
  have method_bytes : Token.bytes ⟨r.text, r.method.length⟩ = r.method := List.take_left
  obtain ⟨path, query⟩ := splitQuery_bytes r.uri ([32] ++ protoText)
  refine ⟨⟨⟨r.text, r.method.length⟩, (splitQuery ⟨uriText, r.uri.length⟩).1,
    (splitQuery ⟨uriText, r.uri.length⟩).2, ⟨protoText, r.proto.length⟩, tokens, r.sizes⟩, ?_,
    method_bytes, path, query, List.take_left, texts, rfl⟩
  rw [parseHead, front, method]
  dsimp only
  rw [uri]
  dsimp only
  rw [proto]
  dsimp only
  rw [if_neg (not_or.mpr ⟨text_ne, uri_ne⟩), headers]
  dsimp only
  rw [defaultSizes_text r method_bytes]

theorem parseHttp_text (r : RequestText) :
    ∃ hm, mgParseHttp r.text = .request r.text.length hm ∧ Reads r hm := by
  obtain ⟨hm, read, reads⟩ := parseHead_text r
  have positive : 0 < r.text.length := by
    have := List.length_pos_iff.mpr r.method_ne
    rw [RequestText.text, List.length_append]
    omega
  refine ⟨hm, ?_, reads⟩
  rw [mgParseHttp, r.requestLen, if_neg (by omega), if_neg (by omega), Int.toNat_natCast,
    List.take_length, read]

/-- A request that was written is read back, whatever is behind it, and not before its last byte
has come. -/
theorem written_read (r : RequestText) (more : List UInt8) :
    (∃ hm, mgParseHttp (r.text ++ more) = .request r.text.length hm ∧ Reads r hm) ∧
      ∀ front, front <+: r.text → front.length < r.text.length →
        mgParseHttp front = .incomplete := by
  obtain ⟨hm, read, reads⟩ := parseHttp_text r
  exact ⟨⟨hm, parseHttp_append read, reads⟩, fun front isPrefix => parseHttp_front read isPrefix⟩

end Guardwatch.Mongoose
