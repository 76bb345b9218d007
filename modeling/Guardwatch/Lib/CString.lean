/-! C strings: a text of bytes other than NUL, and a buffer of a fixed size that holds one. -/

/-- The bytes of a C string before its NUL. -/
structure CText where
  bytes : List UInt8
  nulFree : 0 ∉ bytes
deriving DecidableEq

/-- A C string in a buffer of `n` bytes, which has room for its NUL. -/
structure CBuffer (n : Nat) where
  text : CText
  fits : text.bytes.length < n
deriving DecidableEq

namespace CText

/-- The UTF-8 bytes of a string literal. -/
def utf8 (s : String) : List UInt8 := s.toUTF8.data.toList

def ofString (s : String) (nulFree : 0 ∉ utf8 s := by decide +kernel) : CText := ⟨utf8 s, nulFree⟩

/-- Adjacent string literals. -/
def concat (texts : List CText) : CText where
  bytes := texts.flatMap bytes
  nulFree := by
    simp only [List.mem_flatMap, not_exists, not_and]
    exact fun text _ => text.nulFree

/-- The bytes from `i` on, and `none` where some of them are behind the NUL. -/
def read (s : CText) (i size : Nat) : Option (List UInt8) :=
  if i + size ≤ s.bytes.length + 1 then some (((s.bytes ++ [0]).drop i).take size) else none

/-- `strcpy` to a buffer of `n` bytes, and `none` where it writes past the buffer's end. -/
def strcpy (n : Nat) (src : CText) : Option (CBuffer n) :=
  if fits : src.bytes.length < n then some ⟨src, fits⟩ else none

theorem strcpy_fits {n : Nat} {src : CText} (fits : src.bytes.length < n) :
    src.strcpy n = some ⟨src, fits⟩ := dif_pos fits

/-- In front of the NUL there is a byte to read, and it is another one. -/
theorem read_one {s : CText} {i : Nat} (inside : i < s.bytes.length) :
    s.read i 1 = some [s.bytes[i]] ∧ s.bytes[i] ≠ 0 := by
  constructor
  · rw [read, if_pos (Nat.le_succ_of_le (Nat.succ_le_of_lt inside)),
      List.drop_append_of_le_length (Nat.le_of_lt inside), List.drop_eq_getElem_cons inside]
    rfl
  · intro nul
    exact s.nulFree (nul ▸ List.getElem_mem inside)

/-- Reading in front of the NUL gives the bytes of the text. -/
theorem read_text {s : CText} {before bytes after : List UInt8}
    (text : s.bytes = before ++ (bytes ++ after)) :
    s.read before.length bytes.length = some bytes := by
  have inside : before.length + bytes.length ≤ s.bytes.length + 1 := by
    rw [text, List.length_append, List.length_append]
    omega
  rw [read, if_pos inside, text, List.append_assoc, List.drop_left, List.append_assoc,
    List.take_left]

/-- What is read up to a byte that stops the reading. -/
theorem takeWhile_stop {P : UInt8 → Bool} {front back : List UInt8} {c : UInt8}
    (all : ∀ d ∈ front, P d = true) (stop : P c = false) :
    (front ++ c :: back).takeWhile P = front := by
  rw [List.takeWhile_append_of_pos all, List.takeWhile_cons, stop]
  exact List.append_nil front

/-- The C string in a buffer goes on behind bytes that are no NUL. -/
theorem takeWhile_nulFree {text : List UInt8} (nulFree : 0 ∉ text) (back : List UInt8) :
    (text ++ back).takeWhile (· ≠ 0) = text ++ back.takeWhile (· ≠ 0) := by
  refine List.takeWhile_append_of_pos fun c member => decide_eq_true ?_
  rintro rfl
  exact nulFree member

theorem ext {s t : CText} (h : s.bytes = t.bytes) : s = t := by
  cases s
  cases t
  cases h
  rfl

end CText

namespace CBuffer

def ofString (n : Nat) (s : String) (nulFree : 0 ∉ CText.utf8 s := by decide +kernel)
    (fits : (CText.utf8 s).length < n := by decide +kernel) : CBuffer n :=
  ⟨⟨CText.utf8 s, nulFree⟩, fits⟩

/-- A buffer of NUL bytes. -/
def zero (n : Nat) (pos : Nat.blt 0 n = true := by exact Eq.refl true) : CBuffer n :=
  ⟨⟨[], by decide⟩, Nat.le_of_ble_eq_true pos⟩

end CBuffer
