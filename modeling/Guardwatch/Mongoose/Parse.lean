import Guardwatch.Lib.CInput

/-! The reader of HTTP requests in `mongoose.c`. -/

namespace Guardwatch.Mongoose

open CInput

def mgMaxHttpHeaders : Nat := 40
def mgMaxHttpRequestSize : Nat := 8192

/-- `(size_t) ~0`, which is also `MG_HTTP_CONTENT_LENGTH_UNKNOWN`. -/
def sizeMax : Nat := 2 ^ 64 - 1

/-- A `mg_str` in the head of a request: the head from its first byte on, and its length. -/
structure Token where
  text : List UInt8
  len : Nat
deriving DecidableEq

def Token.bytes (token : Token) : List UInt8 := token.text.take token.len

def isprint (c : UInt8) : Bool := decide (32 ≤ c ∧ c ≤ 126)

/-- `mg_http_get_request_len`, behind `i` bytes. -/
def mgHttpGetRequestLen (i : Nat) : List UInt8 → Int
  | [] => 0
  | c :: buf =>
    if !isprint c ∧ c ≠ 13 ∧ c ≠ 10 ∧ c < 128 then -1
    else if c = 10 ∧ buf.head? = some 10 then i + 2
    else if c = 10 ∧ buf.take 2 = [13, 10] then i + 3
    else mgHttpGetRequestLen (i + 1) buf

/-- `strchr` finds the byte; it also finds a NUL. -/
def isDelim (delims : List UInt8) (c : UInt8) : Bool := c == 0 || delims.contains c

/-- `mg_skip`: the bytes up to a delimiter, and the text behind the delimiters. -/
def mgSkip (delims s : List UInt8) : Token × List UInt8 :=
  let len := (s.takeWhile (!isDelim delims ·)).length
  (⟨s, len⟩, (s.drop len).dropWhile (isDelim delims))

def tolower (c : UInt8) : UInt8 := if 65 ≤ c ∧ c ≤ 90 then c + 32 else c

/-- `mg_ncasecmp` returns 0 for the first bytes of the text. -/
def mgNcasecmp (text name : List UInt8) : Bool :=
  (text.take name.length).map tolower == name.map tolower

/-- `mg_vcasecmp` returns 0. -/
def mgVcasecmp (str : Token) (name : List UInt8) : Bool :=
  str.bytes.map tolower == name.map tolower

def contentLengthName : List UInt8 := CText.utf8 "Content-Length"
def methodPut : List UInt8 := CText.utf8 "PUT"
def methodPost : List UInt8 := CText.utf8 "POST"
def transferEncodingName : List UInt8 := CText.utf8 "Transfer-Encoding"
def chunkedValue : List UInt8 := CText.utf8 "chunked"
def secWebSocketKeyName : List UInt8 := CText.utf8 "Sec-WebSocket-Key"

def to64 (x : List UInt8) : Int := strtoll x

/-- The sizes in `http_message`. -/
structure HttpSizes where
  bodyLen : Nat
  messageLen : Nat
  contentLength : Nat
deriving DecidableEq

/-- The fields of `http_message` for a request. -/
structure HttpHead where
  method : Token
  uri : Token
  queryString : Option Token
  proto : Token
  headers : List (Token × Token)
  sizes : HttpSizes
deriving DecidableEq

/-- A value without the spaces at its end. -/
def trimValue (v : Token) : Token :=
  ⟨v.text, (v.bytes.reverse.dropWhile (· = 32)).length⟩

/-- The sizes behind a header; `len` is the length of the head. -/
def headerSizes (len : Nat) (k v : Token) (sizes : HttpSizes) : HttpSizes :=
  if mgNcasecmp k.text contentLengthName then
    let bodyLen := (to64 v.text % 2 ^ 64).toNat
    ⟨bodyLen, (len + bodyLen) % 2 ^ 64, bodyLen⟩
  else sizes

/-- `mg_http_parse_headers`, for a text shorter than `fuel`, with `room` headers left. -/
def mgHttpParseHeaders (len : Nat) :
    Nat → Nat → List UInt8 → HttpSizes → List (Token × Token) × HttpSizes
  | 0, _, _, sizes => ([], sizes)
  | _ + 1, 0, _, sizes => ([], sizes)
  | fuel + 1, room + 1, s, sizes =>
    let (k, s) := mgSkip [58, 32] s
    let (v, s) := mgSkip [13, 10] s
    let v := trimValue v
    if k.len ≠ 0 ∧ v.len = 0 then mgHttpParseHeaders len fuel (room + 1) s sizes
    else if k.len = 0 ∨ v.len = 0 then ([], sizes)
    else
      let (headers, sizes) := mgHttpParseHeaders len fuel room s (headerSizes len k v sizes)
      ((k, v) :: headers, sizes)

inductive Parsed
  | malformed
  | incomplete
  | request (len : Nat) (hm : HttpHead)
deriving DecidableEq

/-- The URI up to a question mark, and what is behind it. -/
def splitQuery (uri : Token) : Token × Option Token :=
  let len := (uri.bytes.takeWhile (· ≠ 63)).length
  if len = uri.len then (uri, none)
  else (⟨uri.text, len⟩, some ⟨uri.text.drop (len + 1), uri.len - (len + 1)⟩)

/-- A body that only its method can have. -/
def defaultSizes (len : Nat) (method : Token) (sizes : HttpSizes) : HttpSizes :=
  if sizes.bodyLen = sizeMax ∧ !mgVcasecmp method methodPut ∧ !mgVcasecmp method methodPost then
    { sizes with bodyLen := 0, messageLen := len }
  else sizes

/-- `mg_parse_http` for a request whose head has been found. -/
def parseHead (head : List UInt8) : Parsed :=
  let s := head.dropWhile isspace
  let (method, afterMethod) := mgSkip [32] s
  let (uri, afterUri) := mgSkip [32] afterMethod
  let (proto, afterProto) := mgSkip [13, 10] afterUri
  if s = [] ∨ afterMethod = [] then .malformed
  else
    let (uri, queryString) := splitQuery uri
    let (headers, sizes) := mgHttpParseHeaders head.length (afterProto.length + 1)
      (mgMaxHttpHeaders - 1) afterProto ⟨sizeMax, sizeMax, sizeMax⟩
    .request head.length
      ⟨method, uri, queryString, proto, headers, defaultSizes head.length method sizes⟩

/-- `mg_parse_http` for a request. -/
def mgParseHttp (s : List UInt8) : Parsed :=
  let len := mgHttpGetRequestLen 0 s
  if len < 0 then .malformed
  else if len = 0 then .incomplete
  else parseHead (s.take len.toNat)

/-- `mg_get_http_header`. -/
def mgGetHttpHeader (hm : HttpHead) (name : List UInt8) : Option Token :=
  (hm.headers.find? fun header =>
    header.1.len = name.length ∧ mgNcasecmp header.1.text name).map Prod.snd

/-! ### Heads in the buffer -/

variable {i : Nat} {s more : List UInt8}

/-- The first byte stops the search. -/
def badByte (c : UInt8) : Bool := !isprint c && c ≠ 13 && c ≠ 10 && decide (c < 128)

/-- The first byte ends a line, and the next line is empty; the length of both ends. -/
def blankLine : List UInt8 → Option Nat
  | [] => none
  | [_] => none
  | c :: d :: s =>
    if c = 10 ∧ d = 10 then some 2
    else if c = 10 ∧ d = 13 ∧ s.head? = some 10 then some 3
    else none

theorem getRequestLen_cons {c : UInt8} :
    mgHttpGetRequestLen i (c :: s) =
      if badByte c then -1
      else
        match blankLine (c :: s) with
        | some n => (i : Int) + n
        | none => mgHttpGetRequestLen (i + 1) s := by
  rw [mgHttpGetRequestLen]
  match s with
  | [] => simp [badByte, blankLine, and_assoc]
  | [d] =>
    by_cases ends : c = 10 ∧ d = 10
    · simp [badByte, blankLine, ends]
    · simp [badByte, blankLine, and_assoc, ends]
  | d :: e :: s =>
    by_cases ends : c = 10 ∧ d = 10
    · simp [badByte, blankLine, ends]
    · by_cases ends' : c = 10 ∧ d = 13 ∧ e = 10 <;>
        simp [badByte, blankLine, and_assoc, ends, ends']

theorem blankLine_append (more : List UInt8) {n : Nat} (blank : blankLine s = some n) :
    2 ≤ n ∧ n ≤ s.length ∧ blankLine (s ++ more) = some n := by
  match s with
  | [] => cases blank
  | [_] => cases blank
  | [c, d] =>
    simp only [blankLine, List.head?_nil] at blank
    split_ifs at blank with ends
    · cases blank
      exact ⟨Nat.le_refl 2, Nat.le_refl 2, if_pos ends⟩
    · simp_all
  | c :: d :: e :: s =>
    refine ⟨?_, ?_, blank⟩ <;> simp only [blankLine] at blank <;> split_ifs at blank <;>
      cases blank <;> simp

theorem blankLine_long {c : UInt8} (long : 2 ≤ s.length) :
    blankLine (c :: s ++ more) = blankLine (c :: s) := by
  match s with
  | d :: e :: s => rfl

theorem blankLine_front {front : List UInt8} (isPrefix : front <+: s) :
    blankLine front = none ∨ ∃ n, blankLine front = some n ∧ blankLine s = some n ∧
      n ≤ front.length := by
  obtain ⟨more, rfl⟩ := isPrefix
  cases blank : blankLine front with
  | none => exact .inl rfl
  | some n =>
    have := blankLine_append more blank
    exact .inr ⟨n, rfl, this.2.2, this.2.1⟩

theorem getRequestLen_ge :
    mgHttpGetRequestLen i s ≤ 0 ∨ (i : Int) + 2 ≤ mgHttpGetRequestLen i s := by
  induction s generalizing i with
  | nil => exact .inl (Int.le_refl 0)
  | cons c s ih =>
    rw [getRequestLen_cons]
    split
    · exact .inl (by omega)
    · split
      · rename_i n blank
        have two := (blankLine_append [] blank).1
        exact .inr (Int.add_le_add_left (Int.ofNat_le.mpr two) i)
      · rcases ih (i := i + 1) with none | found
        · exact .inl none
        · exact .inr (by omega)

/-- In front of the end of a blank line no head is found. -/
theorem getRequestLen_blank {c : UInt8} {n : Nat} (blank : blankLine (c :: s) = some n)
    {front : List UInt8} (isPrefix : front <+: s) (short : front.length + 1 < n) :
    mgHttpGetRequestLen i front = 0 := by
  match s, front with
  | _, [] => rfl
  | [], d :: front => cases blank
  | d :: s, e :: front =>
    obtain ⟨rfl, isPrefix⟩ := List.cons_prefix_cons.mp isPrefix
    rw [List.length_cons] at short
    simp only [blankLine] at blank
    split_ifs at blank with two three
    · cases blank
      omega
    · cases blank
      obtain rfl : front = [] := List.eq_nil_of_length_eq_zero (by omega)
      rw [three.2.1]
      rfl

/-- A head is found at its last byte, whatever is behind it, and not before it. -/
theorem getRequestLen_found (more : List UInt8) {n : Nat}
    (found : mgHttpGetRequestLen i s = (i : Int) + n) (pos : 0 < n) :
    n ≤ s.length ∧ mgHttpGetRequestLen i (s ++ more) = (i : Int) + n ∧
      ∀ front, front <+: s → front.length < n → mgHttpGetRequestLen i front = 0 := by
  induction s generalizing i n with
  | nil =>
    rw [mgHttpGetRequestLen] at found
    omega
  | cons c buf ih =>
    have fronts (good : ¬badByte c = true)
        (further : ∀ front, front <+: buf → front.length + 1 < n →
          mgHttpGetRequestLen (i + 1) front = 0)
        (blank : ∀ m, blankLine (c :: buf) = some m → n ≤ m) :
        ∀ front, front <+: c :: buf → front.length < n → mgHttpGetRequestLen i front = 0 := by
      intro front isPrefix short
      cases front with
      | nil => rfl
      | cons d front =>
        have whole := blankLine_front isPrefix
        obtain ⟨rfl, rest⟩ := List.cons_prefix_cons.mp isPrefix
        rw [getRequestLen_cons, if_neg good]
        rcases whole with nothing | ⟨m, front_blank, found, le⟩
        · rw [nothing]
          exact further front rest short
        · have := blank m found
          omega
    rw [getRequestLen_cons] at found
    split at found
    · omega
    · rename_i good
      split at found
      · rename_i m blank
        obtain rfl : m = n := Int.ofNat.inj (Int.add_left_cancel found)
        obtain ⟨two, inside, further⟩ := blankLine_append more blank
        refine ⟨inside, ?_, fronts good (fun _ => getRequestLen_blank blank) ?_⟩
        · rw [List.cons_append, getRequestLen_cons, if_neg good, ← List.cons_append, further]
        · intro k found
          rw [blank] at found
          cases found
          exact Nat.le_refl m
      · rename_i nothing
        have := getRequestLen_ge (i := i + 1) (s := buf)
        have again : mgHttpGetRequestLen (i + 1) buf =
            ((i + 1 : Nat) : Int) + ((n - 1 : Nat) : Int) := by
          rw [found]
          omega
        obtain ⟨inside, further, before⟩ := ih again (by omega)
        have two : 2 ≤ buf.length := by omega
        refine ⟨by rw [List.length_cons]; omega, ?_, fronts good ?_ ?_⟩
        · rw [List.cons_append, getRequestLen_cons, if_neg good, ← List.cons_append,
            blankLine_long two, nothing]
          dsimp only
          rw [further]
          omega
        · exact fun front isPrefix short => before front isPrefix (by omega)
        · intro m blank
          rw [nothing] at blank
          cases blank

/-- What is read of a head, whatever is behind it. -/
theorem parseHttp_request {n : Nat} {hm : HttpHead}
    (parsed : mgParseHttp s = .request n hm) :
    mgHttpGetRequestLen 0 s = n ∧ 0 < n ∧ n ≤ s.length ∧
      parseHead (s.take n) = .request n hm := by
  rw [mgParseHttp] at parsed
  split at parsed
  · cases parsed
  · split at parsed
    · cases parsed
    · rename_i positive nonzero
      obtain ⟨k, len⟩ := Int.eq_ofNat_of_zero_le (a := mgHttpGetRequestLen 0 s) (by omega)
      rw [len, Int.toNat_natCast] at parsed
      have found := getRequestLen_found (i := 0) (s := s) [] (n := k) (by rw [len]; simp)
        (by omega)
      have whole : (s.take k).length = n := by
        have read := parsed
        rw [parseHead] at read
        dsimp only at read
        split at read
        · cases read
        · cases read
          rfl
      rw [List.length_take, Nat.min_eq_left found.1] at whole
      subst whole
      exact ⟨len, by omega, found.1, parsed⟩

theorem parseHttp_append {n : Nat} {hm : HttpHead}
    (parsed : mgParseHttp s = .request n hm) :
    mgParseHttp (s ++ more) = .request n hm := by
  obtain ⟨len, positive, inside, head⟩ := parseHttp_request parsed
  have found := getRequestLen_found (i := 0) more (n := n) (by rw [len]; simp) positive
  rw [mgParseHttp, found.2.1]
  rw [if_neg (by omega), if_neg (by omega)]
  simpa [List.take_append_of_le_length inside] using head

theorem parseHttp_front {n : Nat} {hm : HttpHead} (parsed : mgParseHttp s = .request n hm)
    {front : List UInt8} (isPrefix : front <+: s) (short : front.length < n) :
    mgParseHttp front = .incomplete := by
  obtain ⟨len, positive, -, -⟩ := parseHttp_request parsed
  have found := getRequestLen_found (i := 0) [] (n := n) (by rw [len]; simp) positive
  rw [mgParseHttp, found.2.2 front isPrefix short]
  rfl

end Guardwatch.Mongoose
