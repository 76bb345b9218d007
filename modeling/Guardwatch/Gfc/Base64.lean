import Guardwatch.Lib.CString
import Guardwatch.Lib.Sextets
import Mathlib.Logic.Function.Basic

/-! The base64 codecs of `gfc_base64.c` and `gfc_crypto.c`, and the strings on which each decodes
what the other encodes. -/

namespace Guardwatch

open Bytes Sextets


/-- The character `=`. -/
def padding : UInt8 := 61

/-! ### `gfc_base64.c` -/

def base64Table : List UInt8 :=
  CText.utf8 "ABCDEFGHIJKLMNOPQRSTUVWXYZabcdefghijklmnopqrstuvwxyz0123456789+/"

/-- The element of a table of 64 characters. -/
def charAt (table : List UInt8) (i : UInt8) : UInt8 := table.getD i.toNat 0

/-- The loop of `gfc_base64_encode`, with `line_len` as its argument, and what follows the loop. -/
def encodeLines (lineLen : Nat) : List UInt8 → List UInt8
  | a :: b :: c :: rest =>
    charAt base64Table (first a) :: charAt base64Table (second a b) ::
      charAt base64Table (third b c) :: charAt base64Table (fourth c) ::
      if lineLen + 4 ≥ 72 then newline :: encodeLines 0 rest else encodeLines (lineLen + 4) rest
  | [a, b] => [charAt base64Table (first a), charAt base64Table (second a b),
      charAt base64Table ((b &&& 0x0f) <<< 2), padding, newline]
  | [a] => [charAt base64Table (first a), charAt base64Table ((a &&& 0x03) <<< 4), padding, padding,
      newline]
  | [] => if lineLen ≠ 0 then [newline] else []

/-- `none` stands for `NULL`, which is returned when the size of the buffer overflows. -/
def gfcBase64Encode (src : List UInt8) : Option (List UInt8) :=
  let len := UInt64.ofNat src.length
  let olen := len * 4 / 3 + 4
  let olen := olen + olen / 72
  let olen := olen + 1
  if olen < len then none else some (encodeLines 0 src)

/-- `dtable` after the first `n` passes of the loop that fills it. -/
def fillTable (n : Nat) : UInt8 → UInt8 :=
  (List.range n).foldl
    (fun d i => Function.update d (charAt base64Table (UInt8.ofNat i)) (UInt8.ofNat i)) fun _ => 0x80

def dtable : UInt8 → UInt8 := Function.update (fillTable 64) padding 0

/-- The second loop of `gfc_base64_decode`, over the characters that it does not skip. It ends at
the first block with padding. -/
def decodeBlocks : List UInt8 → Option (List UInt8)
  | c0 :: c1 :: c2 :: c3 :: rest =>
    let bytes := [byte0 (dtable c0) (dtable c1), byte1 (dtable c1) (dtable c2),
      byte2 (dtable c2) (dtable c3)]
    match [c0, c1, c2, c3].count padding with
    | 0 => (decodeBlocks rest).map (bytes ++ ·)
    | 1 => some (bytes.take 2)
    | 2 => some (bytes.take 1)
    | _ => none
  | _ => some []

def gfcBase64Decode (src : List UInt8) : Option (List UInt8) :=
  let known := src.filter fun c => dtable c != 0x80
  if known.length = 0 ∨ known.length % 4 ≠ 0 then none else decodeBlocks known

/-! ### `gfc_crypto.c` -/

def gfcB64Chars : List UInt8 :=
  CText.utf8 "ABCDEFGHIJKLMNOPQRSTUVWXYZabcdefghijklmnopqrstuvwxyz0123456789+/"

def gfcCryptoBase64ToInt (ch : UInt8) : UInt8 :=
  if ch = 43 then 62
  else if ch = 47 then 63
  else if ch = 61 then 64
  else if 47 < ch ∧ ch < 58 then ch + 4
  else if 64 < ch ∧ ch < 91 then ch - 65
  else if 96 < ch ∧ ch < 123 then ch - 97 + 26
  else 0

def gfcCryptoBase64Encode : List UInt8 → List UInt8
  | s0 :: s1 :: s2 :: rest =>
    charAt gfcB64Chars ((s0 &&& 255) >>> 2) ::
      charAt gfcB64Chars (((s0 &&& 0x03) <<< 4) + ((s1 &&& 0xF0) >>> 4)) ::
      charAt gfcB64Chars (((s1 &&& 0x0F) <<< 2) + ((s2 &&& 0xC0) >>> 6)) ::
      charAt gfcB64Chars (s2 &&& 0x3F) :: gfcCryptoBase64Encode rest
  | [s0, s1] => [charAt gfcB64Chars ((s0 &&& 255) >>> 2),
      charAt gfcB64Chars (((s0 &&& 0x03) <<< 4) + ((s1 &&& 0xF0) >>> 4)),
      charAt gfcB64Chars ((s1 &&& 0x0F) <<< 2), padding]
  | [s0] => [charAt gfcB64Chars ((s0 &&& 255) >>> 2),
      charAt gfcB64Chars (((s0 &&& 0x03) <<< 4) + (((0 : UInt8) &&& 0xF0) >>> 4)), padding,
      padding]
  | [] => []

/-- The bytes that four characters stand for. -/
def cryptoBlock (s0 s1 s2 s3 : UInt8) : List UInt8 :=
  let out0 := ((s0 &&& 255) <<< 2) + ((s1 &&& 0x30) >>> 4)
  let out1 := ((s1 &&& 0x0F) <<< 4) + ((s2 &&& 0x3C) >>> 2)
  if s2 ≠ 64 then
    if s3 ≠ 64 then [out0, out1, ((s2 &&& 0x03) <<< 6) + s3] else [out0, out1]
  else [out0]

/-- A character outside the alphabet counts as 0. What remains after the last four characters is
left. -/
def gfcCryptoBase64Decode : List UInt8 → List UInt8
  | c0 :: c1 :: c2 :: c3 :: rest =>
    cryptoBlock (gfcCryptoBase64ToInt c0) (gfcCryptoBase64ToInt c1) (gfcCryptoBase64ToInt c2)
      (gfcCryptoBase64ToInt c3) ++ gfcCryptoBase64Decode rest
  | _ => []

/-! ### Characters of the alphabet -/

theorem toInt_newline : gfcCryptoBase64ToInt newline = 0 := rfl

theorem toInt_padding : gfcCryptoBase64ToInt padding = 64 := rfl

theorem base64Table_numbers :
    base64Table.map gfcCryptoBase64ToInt = (List.range 64).map UInt8.ofNat := by decide +kernel

theorem toInt_charAt {i : UInt8} (less : i.toNat < 64) :
    gfcCryptoBase64ToInt (charAt base64Table i) = i := by
  have length : base64Table.length = 64 := by
    have := congrArg List.length base64Table_numbers
    rwa [List.length_map, List.length_map, List.length_range] at this
  have number := congrArg (·[i.toNat]?) base64Table_numbers
  rw [List.getElem?_map, List.getElem?_map, List.getElem?_range less,
    List.getElem?_eq_getElem (by omega), Option.map_some, Option.map_some, UInt8.ofNat_toNat] at number
  rw [charAt, List.getD_eq_getElem?_getD, List.getElem?_eq_getElem (by omega), Option.getD_some]
  exact Option.some.inj number

theorem charAt_ne_padding {i : UInt8} (less : i.toNat < 64) : charAt base64Table i ≠ padding := by
  intro same
  have number := toInt_charAt less
  rw [same, toInt_padding] at number
  rw [← number] at less
  exact absurd less (by decide)

/-- The loop that fills the table sets the number of each character once. -/
theorem fill_charAt (n : Nat) (le : n ≤ 64) {i : UInt8} (less : i.toNat < 64) :
    fillTable n (charAt base64Table i) = if i.toNat < n then i else 0x80 := by
  induction n with
  | zero => rfl
  | succ n ih =>
    have toNat : (UInt8.ofNat n).toNat = n := by
      rw [UInt8.toNat_ofNat']
      omega
    rw [fillTable, List.range_succ, List.foldl_append, List.foldl_cons, List.foldl_nil, ← fillTable]
    by_cases same : i.toNat = n
    · rw [if_pos (by omega), ← same, UInt8.ofNat_toNat, Function.update_self]
    · have apart : charAt base64Table i ≠ charAt base64Table (UInt8.ofNat n) := by
        intro eq
        have number := toInt_charAt less
        rw [eq, toInt_charAt (by omega)] at number
        rw [← number, toNat] at same
        exact same rfl
      rw [Function.update_of_ne apart, ih (by omega)]
      exact if_congr (by omega) rfl rfl

theorem charAt_facts {i : UInt8} (less : i.toNat < 64) :
    dtable (charAt base64Table i) = i ∧ gfcCryptoBase64ToInt (charAt base64Table i) = i ∧
      charAt base64Table i ≠ padding := by
  refine ⟨?_, toInt_charAt less, charAt_ne_padding less⟩
  rw [dtable, Function.update_of_ne (charAt_ne_padding less)]
  exact (fill_charAt 64 (Nat.le_refl _) less).trans (if_pos less)


/-! ### The same numbers from both encoders -/

section Numbers

variable (a b c : UInt8)

theorem mask_first : (a &&& 255) >>> 2 = first a := by
  rw [show a &&& 255 = a from UInt8.and_neg_one]
  rfl

theorem mask_second : ((a &&& 0x03) <<< 4) + ((b &&& 0xF0) >>> 4) = second a b := by
  have small : (b >>> 4).toNat < 2 ^ 4 := by
    have := b.toNat_lt
    rw [show (b >>> 4).toNat = b.toNat / 2 ^ 4 from toNat_shiftRight b (k := 4) (by decide)]
    omega
  rw [show (b &&& 0xF0) >>> 4 = b >>> 4 from mask_shiftRight b 0xF0 4 (j := 4) (by decide) rfl small]
  exact shiftLeft_add (a &&& 0x03) (b >>> 4) (k := 4) (by decide) small

theorem mask_third : ((b &&& 0x0F) <<< 2) + ((c &&& 0xC0) >>> 6) = third b c := by
  have small : (c >>> 6).toNat < 2 ^ 2 := by
    have := c.toNat_lt
    rw [show (c >>> 6).toNat = c.toNat / 2 ^ 6 from toNat_shiftRight c (k := 6) (by decide)]
    omega
  rw [show (c &&& 0xC0) >>> 6 = c >>> 6 from mask_shiftRight c 0xC0 6 (j := 2) (by decide) rfl small]
  exact shiftLeft_add (b &&& 0x0F) (c >>> 6) (k := 2) (by decide) small

theorem second_zero : second a 0 = (a &&& 0x03) <<< 4 := UInt8.or_zero

theorem third_zero : third b 0 = (b &&& 0x0F) <<< 2 := UInt8.or_zero

end Numbers

/-! ### `gfc_base64_decode` after `gfc_crypto_base64_encode` -/

theorem gfcB64Chars_eq : gfcB64Chars = base64Table := rfl

/-- One whole group from `gfc_crypto_base64_encode`. -/
theorem gfcCryptoBase64Encode_cons (a b c : UInt8) (rest : List UInt8) :
    gfcCryptoBase64Encode (a :: b :: c :: rest) =
      charAt base64Table (first a) :: charAt base64Table (second a b) ::
        charAt base64Table (third b c) :: charAt base64Table (fourth c) ::
        gfcCryptoBase64Encode rest := by
  rw [gfcCryptoBase64Encode, mask_first, mask_second, mask_third, gfcB64Chars_eq]
  rfl

theorem gfcCryptoBase64Encode_pair (a b : UInt8) :
    gfcCryptoBase64Encode [a, b] = [charAt base64Table (first a), charAt base64Table (second a b),
      charAt base64Table (third b 0), padding] := by
  rw [gfcCryptoBase64Encode, mask_first, mask_second, third_zero, gfcB64Chars_eq]

theorem gfcCryptoBase64Encode_single (a : UInt8) :
    gfcCryptoBase64Encode [a] = [charAt base64Table (first a), charAt base64Table (second a 0),
      padding, padding] := by
  rw [gfcCryptoBase64Encode, mask_first, mask_second, gfcB64Chars_eq]

theorem decodeBlocks_encode (x : List UInt8) :
    decodeBlocks (gfcCryptoBase64Encode x) = some x := by
  induction x using gfcCryptoBase64Encode.induct with
  | case1 a b c rest ih =>
    obtain ⟨d0, -, n0⟩ := charAt_facts (first_lt a)
    obtain ⟨d1, -, n1⟩ := charAt_facts (second_lt a b)
    obtain ⟨d2, -, n2⟩ := charAt_facts (third_lt b c)
    obtain ⟨d3, -, n3⟩ := charAt_facts (fourth_lt c)
    simp [gfcCryptoBase64Encode_cons, decodeBlocks, n0, n1, n2, n3, d0, d1, d2, d3,
      ih, byte0_split, byte1_split, byte2_split]
  | case2 a b =>
    obtain ⟨d0, -, n0⟩ := charAt_facts (first_lt a)
    obtain ⟨d1, -, n1⟩ := charAt_facts (second_lt a b)
    obtain ⟨d2, -, n2⟩ := charAt_facts (third_lt b 0)
    simp [gfcCryptoBase64Encode_pair, decodeBlocks, n0, n1, n2, d0, d1, d2,
      byte0_split, byte1_split]
  | case3 a =>
    obtain ⟨d0, -, n0⟩ := charAt_facts (first_lt a)
    obtain ⟨d1, -, n1⟩ := charAt_facts (second_lt a 0)
    simp [gfcCryptoBase64Encode_single, decodeBlocks, n0, n1, d0, d1, byte0_split]
  | case4 => rfl

theorem dtable_charAt {i : UInt8} (less : i.toNat < 64) :
    dtable (charAt base64Table i) ≠ 0x80 := by
  rw [(charAt_facts less).1]
  rintro rfl
  exact absurd less (by decide)

/-- `gfc_base64_decode` skips no character that `gfc_crypto_base64_encode` wrote. -/
theorem known_encode (x : List UInt8) : ∀ c ∈ gfcCryptoBase64Encode x, dtable c ≠ 0x80 := by
  have pad : dtable padding ≠ 0x80 := by decide +kernel
  induction x using gfcCryptoBase64Encode.induct with
  | case1 a b c rest ih =>
    rw [gfcCryptoBase64Encode_cons]
    simp only [List.forall_mem_cons]
    exact ⟨dtable_charAt (first_lt a), dtable_charAt (second_lt a b), dtable_charAt (third_lt b c),
      dtable_charAt (fourth_lt c), ih⟩
  | case2 a b =>
    rw [gfcCryptoBase64Encode_pair]
    simp only [List.forall_mem_cons]
    exact ⟨dtable_charAt (first_lt a), dtable_charAt (second_lt a b), dtable_charAt (third_lt b 0),
      pad, nofun⟩
  | case3 a =>
    rw [gfcCryptoBase64Encode_single]
    simp only [List.forall_mem_cons]
    exact ⟨dtable_charAt (first_lt a), dtable_charAt (second_lt a 0), pad, pad, nofun⟩
  | case4 => exact nofun

theorem length_encode (x : List UInt8) :
    (gfcCryptoBase64Encode x).length = 4 * ((x.length + 2) / 3) := by
  induction x using gfcCryptoBase64Encode.induct with
  | case1 a b c rest ih =>
    rw [gfcCryptoBase64Encode_cons]
    simp only [List.length_cons, ih]
    omega
  | case2 a b => simp [gfcCryptoBase64Encode_pair]
  | case3 a => simp [gfcCryptoBase64Encode_single]
  | case4 => rfl

theorem filter_encode (x : List UInt8) :
    (gfcCryptoBase64Encode x).filter (fun c => dtable c != 0x80) = gfcCryptoBase64Encode x :=
  List.filter_eq_self.mpr fun c member => bne_iff_ne.mpr (known_encode x c member)

theorem gfcBase64Decode_encode {x : List UInt8} (nonempty : x ≠ []) :
    gfcBase64Decode (gfcCryptoBase64Encode x) = some x := by
  have := List.length_pos_iff.mpr nonempty
  have blocks : ¬((gfcCryptoBase64Encode x).length = 0 ∨
      (gfcCryptoBase64Encode x).length % 4 ≠ 0) := by
    rw [length_encode]
    omega
  rw [gfcBase64Decode, filter_encode, if_neg blocks]
  exact decodeBlocks_encode x

/-! ### `gfc_crypto_base64_decode` after `gfc_base64_encode` -/

section Blocks

variable {s0 s1 s2 s3 : UInt8}

theorem mask_byte0 (h1 : s1.toNat < 64) :
    ((s0 &&& 255) <<< 2) + ((s1 &&& 0x30) >>> 4) = byte0 s0 s1 := by
  have high : s0 &&& 255 = s0 := UInt8.and_neg_one
  have small : (s1 >>> 4).toNat < 2 ^ 2 := by
    rw [show (s1 >>> 4).toNat = s1.toNat / 2 ^ 4 from toNat_shiftRight s1 (k := 4) (by decide)]
    omega
  rw [high, show (s1 &&& 0x30) >>> 4 = s1 >>> 4 from
    mask_shiftRight s1 0x30 4 (j := 2) (by decide) rfl small]
  exact shiftLeft_add s0 (s1 >>> 4) (k := 2) (by decide) small

theorem mask_byte1 (h2 : s2.toNat < 64) :
    ((s1 &&& 0x0F) <<< 4) + ((s2 &&& 0x3C) >>> 2) = byte1 s1 s2 := by
  have high : (s1 &&& 0x0F) <<< 4 = s1 <<< 4 := mask_shiftLeft s1 (k := 4) (by decide) (by decide)
  have small : (s2 >>> 2).toNat < 2 ^ 4 := by
    rw [show (s2 >>> 2).toNat = s2.toNat / 2 ^ 2 from toNat_shiftRight s2 (k := 2) (by decide)]
    omega
  rw [high, show (s2 &&& 0x3C) >>> 2 = s2 >>> 2 from
    mask_shiftRight s2 0x3C 2 (j := 4) (by decide) rfl small]
  exact shiftLeft_add s1 (s2 >>> 2) (k := 4) (by decide) small

theorem mask_byte2 (h3 : s3.toNat < 64) : ((s2 &&& 0x03) <<< 6) + s3 = byte2 s2 s3 := by
  have high : (s2 &&& 0x03) <<< 6 = s2 <<< 6 := mask_shiftLeft s2 (k := 6) (by decide) (by decide)
  rw [high]
  exact shiftLeft_add s2 s3 (k := 6) (by decide) h3

theorem ne_64 {s : UInt8} (less : s.toNat < 64) : s ≠ 64 := by
  rintro rfl
  exact absurd less (by decide)

theorem cryptoBlock_full (h1 : s1.toNat < 64) (h2 : s2.toNat < 64) (h3 : s3.toNat < 64) :
    cryptoBlock s0 s1 s2 s3 = [byte0 s0 s1, byte1 s1 s2, byte2 s2 s3] := by
  rw [cryptoBlock, mask_byte0 h1, mask_byte1 h2, mask_byte2 h3, if_pos (ne_64 h2), if_pos (ne_64 h3)]

theorem cryptoBlock_pair (h1 : s1.toNat < 64) (h2 : s2.toNat < 64) :
    cryptoBlock s0 s1 s2 64 = [byte0 s0 s1, byte1 s1 s2] := by
  rw [cryptoBlock, mask_byte0 h1, mask_byte1 h2, if_pos (ne_64 h2), if_neg (not_not.mpr rfl)]

theorem cryptoBlock_single (h1 : s1.toNat < 64) : cryptoBlock s0 s1 64 s3 = [byte0 s0 s1] := by
  rw [cryptoBlock, mask_byte0 h1, if_neg (not_not.mpr rfl)]

end Blocks

/-- The characters of a whole group. -/
def group (a b c : UInt8) : List UInt8 :=
  [charAt base64Table (first a), charAt base64Table (second a b), charAt base64Table (third b c),
    charAt base64Table (fourth c)]

theorem decode_group (a b c : UInt8) (rest : List UInt8) :
    gfcCryptoBase64Decode (group a b c ++ rest) = a :: b :: c :: gfcCryptoBase64Decode rest := by
  simp only [group, List.cons_append, List.nil_append, gfcCryptoBase64Decode,
    (charAt_facts (first_lt a)).2.1, (charAt_facts (second_lt a b)).2.1,
    (charAt_facts (third_lt b c)).2.1, (charAt_facts (fourth_lt c)).2.1,
    cryptoBlock_full (second_lt a b) (third_lt b c) (fourth_lt c), byte0_split, byte1_split,
    byte2_split]

theorem padding_not_mem_group (a b c : UInt8) : padding ∉ group a b c := by
  simp only [group, List.mem_cons, not_or]
  exact ⟨(charAt_facts (first_lt a)).2.2.symm, (charAt_facts (second_lt a b)).2.2.symm,
    (charAt_facts (third_lt b c)).2.2.symm, (charAt_facts (fourth_lt c)).2.2.symm, nofun⟩

theorem toInt_group (a b c : UInt8) :
    (group a b c).map gfcCryptoBase64ToInt = [first a, second a b, third b c, fourth c] := by
  simp only [group, List.map_cons, List.map_nil,
    (charAt_facts (first_lt a)).2.1, (charAt_facts (second_lt a b)).2.1,
    (charAt_facts (third_lt b c)).2.1, (charAt_facts (fourth_lt c)).2.1]

theorem encodeLines_cons (lineLen : Nat) (a b c : UInt8) (rest : List UInt8) :
    encodeLines lineLen (a :: b :: c :: rest) = group a b c ++
      if lineLen + 4 ≥ 72 then newline :: encodeLines 0 rest
      else encodeLines (lineLen + 4) rest := by
  rw [encodeLines]
  rfl

/-- A string whose encoding stays on the line is decoded. -/
theorem decode_encodeLines (lineLen : Nat) (x : List UInt8)
    (short : lineLen + 4 * ((x.length + 2) / 3) ≤ 72) :
    gfcCryptoBase64Decode (encodeLines lineLen x) = x := by
  induction lineLen, x using encodeLines.induct with
  | case1 lineLen a b c rest _ ih =>
    rw [List.length_cons, List.length_cons, List.length_cons] at short
    rw [encodeLines_cons, decode_group]
    split
    · have empty : rest = [] := List.eq_nil_of_length_eq_zero (by omega)
      rw [empty]
      rfl
    · rw [ih (by omega)]
  | case2 lineLen a b =>
    rw [encodeLines, ← third_zero]
    simp only [gfcCryptoBase64Decode, (charAt_facts (first_lt a)).2.1,
      (charAt_facts (second_lt a b)).2.1, (charAt_facts (third_lt b 0)).2.1, toInt_padding,
      cryptoBlock_pair (second_lt a b) (third_lt b 0), byte0_split, byte1_split, List.append_nil]
  | case3 lineLen a =>
    rw [encodeLines, ← second_zero]
    simp only [gfcCryptoBase64Decode, (charAt_facts (first_lt a)).2.1,
      (charAt_facts (second_lt a 0)).2.1, toInt_padding, cryptoBlock_single (second_lt a 0),
      byte0_split, List.append_nil]
  | _ => simp_all [encodeLines, gfcCryptoBase64Decode]

/-- The bytes of the current line come first, and the newline begins the next group. -/
theorem decode_line (lineLen : Nat) (line rest : List UInt8) (inside : lineLen < 72)
    (fills : 3 * (72 - lineLen) = 4 * line.length) :
    gfcCryptoBase64Decode (encodeLines lineLen (line ++ rest)) =
      line ++ gfcCryptoBase64Decode (newline :: encodeLines 0 rest) := by
  induction line using split.induct generalizing lineLen with
  | case1 a b c line ih =>
    rw [List.length_cons, List.length_cons, List.length_cons] at fills
    rw [List.cons_append, List.cons_append, List.cons_append, encodeLines_cons, decode_group]
    split
    · have empty : line = [] := List.eq_nil_of_length_eq_zero (by omega)
      rw [empty]
      rfl
    · rw [ih (lineLen + 4) (by omega) (by omega)]
      rfl
  | case2 line short =>
    rcases line with _ | ⟨a, _ | ⟨b, _ | ⟨c, line⟩⟩⟩
    · simp at fills; omega
    · simp at fills; omega
    · simp at fills; omega
    · exact absurd rfl (short a b c line)

/-! ### A newline in front -/

theorem toInt_lt {c : UInt8} (clean : c ≠ padding) : (gfcCryptoBase64ToInt c).toNat < 64 := by
  unfold gfcCryptoBase64ToInt
  split
  · decide
  split
  · decide
  split
  · exact absurd ‹c = 61› clean
  simp only [UInt8.lt_iff_toNat_lt, UInt8.reduceToNat]
  split
  · simp only [UInt8.toNat_add, UInt8.reduceToNat]
    omega
  split
  · simp only [UInt8.toNat_sub, UInt8.reduceToNat]
    omega
  split
  · simp only [UInt8.toNat_add, UInt8.toNat_sub, UInt8.reduceToNat]
    omega
  · decide

/-- Characters without padding are decoded four by four. -/
theorem decode_clean (chars : List UInt8) (clean : padding ∉ chars) :
    gfcCryptoBase64Decode chars = join (chars.map gfcCryptoBase64ToInt) := by
  induction chars using gfcCryptoBase64Decode.induct with
  | case1 c0 c1 c2 c3 rest ih =>
    simp only [List.mem_cons, not_or] at clean
    obtain ⟨-, n1, n2, n3, clean⟩ := clean
    rw [gfcCryptoBase64Decode, cryptoBlock_full (toInt_lt (Ne.symm n1)) (toInt_lt (Ne.symm n2))
      (toInt_lt (Ne.symm n3)), ih clean]
    rfl
  | case2 chars short =>
    match chars, short with
    | [], _ | [_], _ | [_, _], _ | [_, _, _], _ => simp [gfcCryptoBase64Decode, join]
    | c0 :: c1 :: c2 :: c3 :: rest, short => exact absurd rfl (short c0 c1 c2 c3 rest)

theorem length_cryptoBlock (s0 s1 : UInt8) {s2 : UInt8} (s3 : UInt8) (less : s2.toNat < 64) :
    2 ≤ (cryptoBlock s0 s1 s2 s3).length := by
  rw [cryptoBlock, if_pos (ne_64 less)]
  split <;> simp

/-- What the characters before the padding leave in the output. -/
theorem length_decode_append (front rest : List UInt8) (clean : padding ∉ front)
    (nonempty : rest ≠ []) :
    3 * (front.length / 4) + front.length % 4 / 3 * 2 ≤
      (gfcCryptoBase64Decode (front ++ rest)).length := by
  induction front using gfcCryptoBase64Decode.induct with
  | case1 c0 c1 c2 c3 front ih =>
    simp only [List.mem_cons, not_or] at clean
    obtain ⟨-, n1, n2, n3, clean⟩ := clean
    have := ih clean
    simp only [List.cons_append, gfcCryptoBase64Decode, cryptoBlock_full (toInt_lt (Ne.symm n1))
      (toInt_lt (Ne.symm n2)) (toInt_lt (Ne.symm n3)), List.length_cons, List.nil_append]
    omega
  | case2 front short =>
    match front, short with
    | [], _ | [_], _ | [_, _], _ => simp
    | [c0, c1, c2], _ =>
      obtain ⟨c3, rest, rfl⟩ := List.exists_cons_of_ne_nil nonempty
      simp only [List.mem_cons, not_or] at clean
      have := length_cryptoBlock (gfcCryptoBase64ToInt c0) (gfcCryptoBase64ToInt c1)
        (gfcCryptoBase64ToInt c3) (toInt_lt (Ne.symm clean.2.2.1))
      simp only [List.cons_append, List.nil_append, gfcCryptoBase64Decode, List.length_append,
        List.length_cons, List.length_nil]
      omega
    | c0 :: c1 :: c2 :: c3 :: rest, short => exact absurd rfl (short c0 c1 c2 c3 rest)

theorem length_group (a b c : UInt8) : (group a b c).length = 4 := rfl

/-- The encoding of whole groups: four characters each, and a newline for each line begun. -/
theorem encodeLines_whole (lineLen : Nat) (x : List UInt8) (inside : lineLen < 72)
    (aligned : lineLen % 4 = 0) (whole : x.length % 3 = 0) :
    padding ∉ encodeLines lineLen x ∧
      (encodeLines lineLen x).length = 4 * (x.length / 3) + (lineLen / 4 + x.length / 3 + 17) / 18 ∧
      Spaced ((encodeLines lineLen x).map gfcCryptoBase64ToInt) (split x) := by
  induction lineLen, x using encodeLines.induct with
  | case1 lineLen a b c rest ih0 ih =>
    simp only [List.length_cons] at whole ⊢
    rw [encodeLines_cons, split, List.map_append, toInt_group]
    split
    · obtain ⟨clean, length, spaced⟩ := ih0 (by omega) (by omega) (by omega)
      refine ⟨?_, ?_, (Spaced.zero spaced).append [first a, second a b, third b c, fourth c]⟩
      · rw [List.mem_append, List.mem_cons, not_or, not_or]
        exact ⟨padding_not_mem_group a b c, by decide, clean⟩
      · rw [List.length_append, List.length_cons, length_group, length]
        omega
    · obtain ⟨clean, length, spaced⟩ := ih (by omega) (by omega) (by omega)
      refine ⟨?_, ?_, spaced.append [first a, second a b, third b c, fourth c]⟩
      · rw [List.mem_append, not_or]
        exact ⟨padding_not_mem_group a b c, clean⟩
      · rw [List.length_append, length_group, length]
        omega
  | case2 lineLen a b => exact absurd whole (by simp)
  | case3 lineLen a => exact absurd whole (by simp)
  | case4 lineLen begun =>
    rw [encodeLines, if_pos begun]
    refine ⟨by decide, ?_, .zero .nil⟩
    simp only [List.length_cons, List.length_nil]
    omega
  | case5 lineLen fresh =>
    rw [encodeLines, if_neg fresh]
    refine ⟨List.not_mem_nil, ?_, .nil⟩
    simp only [List.length_nil]
    omega

/-- Where there is a last group with padding, the characters before its padding. -/
theorem encodeLines_part (lineLen : Nat) (x : List UInt8) (part : x.length % 3 ≠ 0) :
    ∃ front rest, encodeLines lineLen x = front ++ rest ∧ padding ∉ front ∧ rest ≠ [] ∧
      4 * (x.length / 3) + x.length % 3 + 1 ≤ front.length := by
  induction lineLen, x using encodeLines.induct with
  | case1 lineLen a b c rest ih0 ih =>
    simp only [List.length_cons] at part ⊢
    rw [encodeLines_cons]
    split
    · obtain ⟨front, tail, eq, clean, nonempty, long⟩ := ih0 (by omega)
      refine ⟨group a b c ++ newline :: front, tail, by rw [eq]; simp, ?_, nonempty, ?_⟩
      · rw [List.mem_append, List.mem_cons, not_or, not_or]
        exact ⟨padding_not_mem_group a b c, by decide, clean⟩
      · rw [List.length_append, List.length_cons, length_group]
        omega
    · obtain ⟨front, tail, eq, clean, nonempty, long⟩ := ih (by omega)
      refine ⟨group a b c ++ front, tail, by rw [eq, List.append_assoc], ?_, nonempty, ?_⟩
      · rw [List.mem_append, not_or]
        exact ⟨padding_not_mem_group a b c, clean⟩
      · rw [List.length_append, length_group]
        omega
  | case2 lineLen a b =>
    rw [encodeLines, ← third_zero]
    refine ⟨[_, _, _], [padding, newline], rfl, ?_, List.cons_ne_nil _ _, by simp⟩
    simp only [List.mem_cons, not_or]
    exact ⟨(charAt_facts (first_lt a)).2.2.symm, (charAt_facts (second_lt a b)).2.2.symm,
      (charAt_facts (third_lt b 0)).2.2.symm, nofun⟩
  | case3 lineLen a =>
    rw [encodeLines, ← second_zero]
    refine ⟨[_, _], [padding, padding, newline], rfl, ?_, List.cons_ne_nil _ _, by simp⟩
    simp only [List.mem_cons, not_or]
    exact ⟨(charAt_facts (first_lt a)).2.2.symm, (charAt_facts (second_lt a 0)).2.2.symm, nofun⟩
  | case4 lineLen begun => exact absurd rfl part
  | case5 lineLen fresh => exact absurd rfl part

/-- After a newline the codec decodes what it encodes only where every number is 0, so that moving
them changes nothing, and there are not enough newlines for one more group. -/
theorem decode_newline (y : List UInt8) :
    gfcCryptoBase64Decode (newline :: encodeLines 0 y) = y ↔
      y.length ≤ 108 ∧ y.length % 3 = 0 ∧ ∀ b ∈ y, b = 0 := by
  by_cases whole : y.length % 3 = 0
  · obtain ⟨clean, length, spaced⟩ := encodeLines_whole 0 y (by decide) rfl whole
    have decoded : gfcCryptoBase64Decode (newline :: encodeLines 0 y) =
        join (0 :: (encodeLines 0 y).map gfcCryptoBase64ToInt) := by
      rw [decode_clean _ (by simpa using ⟨by decide, clean⟩), List.map_cons, toInt_newline]
    have groups : (0 :: (encodeLines 0 y).map gfcCryptoBase64ToInt).length =
        4 * (y.length / 3) + (y.length / 3 + 17) / 18 + 1 := by
      rw [List.length_cons, List.length_map, length]
      simp
    rw [decoded]
    constructor
    · intro same
      have short : y.length ≤ 108 := by
        have := congrArg List.length same
        rw [length_join, groups] at this
        omega
      refine ⟨short, whole, (split_zero y whole).mp ?_⟩
      have small : ∀ s ∈ 0 :: (encodeLines 0 y).map gfcCryptoBase64ToInt, s.toNat < 64 := by
        rw [List.forall_mem_cons, List.forall_mem_map]
        exact ⟨by decide, fun c member => toInt_lt fun eq => clean (eq ▸ member)⟩
      have shifted := congrArg split same
      rw [split_join _ small, groups] at shifted
      refine spaced.zero_of_shift [0] (by simp) (by simp) ?_
      rw [length_split, List.singleton_append]
      rwa [show 4 * ((4 * (y.length / 3) + (y.length / 3 + 17) / 18 + 1) / 4) =
        4 * (y.length / 3) by omega] at shifted
    · rintro ⟨short, -, zero⟩
      have zeros := join_zero (0 :: (encodeLines 0 y).map gfcCryptoBase64ToInt)
        (List.forall_mem_cons.mpr ⟨rfl, spaced.all_zero ((split_zero y whole).mpr zero)⟩)
      have same : (join (0 :: (encodeLines 0 y).map gfcCryptoBase64ToInt)).length = y.length := by
        rw [length_join, groups]
        omega
      rw [List.eq_replicate_iff.mpr ⟨same, zeros⟩]
      exact (List.eq_replicate_iff.mpr ⟨rfl, zero⟩).symm
  · obtain ⟨front, rest, eq, clean, nonempty, long⟩ := encodeLines_part 0 y whole
    have more := length_decode_append (newline :: front) rest (by simpa using ⟨by decide, clean⟩)
      nonempty
    constructor
    · intro same
      rw [eq, ← List.cons_append] at same
      rw [same, List.length_cons] at more
      rcases Nat.lt_or_ge (y.length / 3) ((front.length + 1) / 4) with beyond | level
      · omega
      · omega
    · exact fun h => absurd h.2.1 whole

/-! ### Both directions -/

/-- Each codec decodes what the other one encodes. -/
def Interoperates (x : List UInt8) : Prop :=
  gfcBase64Decode (gfcCryptoBase64Encode x) = some x ∧
    (gfcBase64Encode x).map gfcCryptoBase64Decode = some x

/-- The encoding has one line, or what is beyond the first line is at most two lines of whole groups
of zeros. -/
def HarmlessNewlines (x : List UInt8) : Prop :=
  x.length ≤ 54 ∨ x.length ≤ 162 ∧ x.length % 3 = 0 ∧ ∀ b ∈ x.drop 54, b = 0

theorem gfcBase64Encode_some {x : List UInt8} (short : x.length ≤ 162) :
    gfcBase64Encode x = some (encodeLines 0 x) := by
  have len : (UInt64.ofNat x.length).toNat = x.length := by
    rw [UInt64.toNat_ofNat']
    omega
  have roomy : ¬UInt64.ofNat x.length * 4 / 3 + 4 + (UInt64.ofNat x.length * 4 / 3 + 4) / 72 + 1 <
      UInt64.ofNat x.length := by
    rw [UInt64.lt_iff_toNat_lt]
    simp only [UInt64.toNat_add, UInt64.toNat_div, UInt64.toNat_mul, len, UInt64.reduceToNat]
    simp (disch := omega) only [Nat.mod_eq_of_lt]
    omega
  rw [gfcBase64Encode, if_neg roomy]

theorem decode_encodeLines_iff (x : List UInt8) :
    gfcCryptoBase64Decode (encodeLines 0 x) = x ↔ HarmlessNewlines x := by
  by_cases short : x.length ≤ 54
  · exact iff_of_true (decode_encodeLines 0 x (by omega)) (.inl short)
  · have decoded := decode_line 0 (x.take 54) (x.drop 54) (by decide) (by
      rw [List.length_take]
      omega)
    have split : x.take 54 ++ x.drop 54 = x := List.take_append_drop 54 x
    have tail := decode_newline (x.drop 54)
    rw [List.length_drop] at tail
    rw [split] at decoded
    calc gfcCryptoBase64Decode (encodeLines 0 x) = x
      _ ↔ gfcCryptoBase64Decode (newline :: encodeLines 0 (x.drop 54)) = x.drop 54 := by
        rw [decoded]
        conv_lhs => rhs; rw [← split]
        exact List.append_right_inj _
      _ ↔ x.length - 54 ≤ 108 ∧ (x.length - 54) % 3 = 0 ∧ ∀ b ∈ x.drop 54, b = 0 := tail
      _ ↔ HarmlessNewlines x := by
        rw [HarmlessNewlines, or_iff_right short, show x.length - 54 ≤ 108 ↔ x.length ≤ 162 by omega,
          show (x.length - 54) % 3 = 0 ↔ x.length % 3 = 0 by omega]

/-- What `gfc_crypto.c` encodes is always decoded; what `gfc_base64.c` encodes, only where its
newlines are harmless to a decoder that counts them as zeros. -/
theorem interoperates_iff (x : List UInt8) (nonempty : x ≠ []) :
    Interoperates x ↔ HarmlessNewlines x := by
  rw [Interoperates, ← decode_encodeLines_iff]
  constructor
  · rintro ⟨-, decoded⟩
    obtain ⟨e, encoded, same⟩ := Option.map_eq_some_iff.mp decoded
    unfold gfcBase64Encode at encoded
    dsimp only at encoded
    split at encoded
    · cases encoded
    · cases encoded
      exact same
  · intro same
    have short : x.length ≤ 162 := by
      rcases (decode_encodeLines_iff x).mp same with short | ⟨short, -⟩
      · omega
      · exact short
    refine ⟨gfcBase64Decode_encode nonempty, ?_⟩
    rw [gfcBase64Encode_some short, Option.map_some, same]

theorem interoperates_iff_digits : Interoperates (CText.utf8 "1234567890") ↔
    HarmlessNewlines (CText.utf8 "1234567890") :=
  interoperates_iff (CText.utf8 "1234567890") (by decide +kernel)

/-- The encoding of 55 zeros has a second line, whose padding is not decoded where it stands. -/
theorem interoperates_fails : ¬∀ x : List UInt8, x ≠ [] → Interoperates x := by
  intro every
  have length : (List.replicate 55 (0 : UInt8)).length = 55 := List.length_replicate
  have decoded := (every (List.replicate 55 0) (List.cons_ne_nil _ _)).2
  rw [gfcBase64Encode_some (by omega), Option.map_some] at decoded
  rcases (decode_encodeLines_iff _).mp (Option.some.inj decoded) with short | ⟨-, whole, -⟩
  · omega
  · omega

end Guardwatch
