import Guardwatch.Gfc.Base64

/-! The lines of `gfc_base64_encode`: they fit the buffer, and `gfc_base64_decode` reads them
back. -/

namespace Guardwatch

open Bytes Sextets

/-- `olen`, the size of the buffer of `gfc_base64_encode`. -/
def base64Olen (len : UInt64) : UInt64 :=
  let olen := len * 4 / 3 + 4
  let olen := olen + olen / 72
  olen + 1

theorem gfcBase64Encode_eq (src : List UInt8) :
    gfcBase64Encode src =
      if base64Olen (UInt64.ofNat src.length) < UInt64.ofNat src.length then none
      else some (encodeLines 0 src) := rfl

/-! ### The size of the output -/

/-- Four characters for each group begun, and a newline for each line begun. -/
theorem length_encodeLines (lineLen : Nat) (x : List UInt8) (inside : lineLen < 72)
    (aligned : lineLen % 4 = 0) :
    (encodeLines lineLen x).length =
      4 * ((x.length + 2) / 3) + (lineLen + 4 * ((x.length + 2) / 3) + 71) / 72 := by
  induction lineLen, x using encodeLines.induct with
  | case1 lineLen a b c rest ih0 ih =>
    rw [encodeLines_cons, List.length_append, length_group]
    simp only [List.length_cons]
    split
    · rw [List.length_cons, ih0 (by omega) (by omega)]
      omega
    · rw [ih (by omega) (by omega)]
      omega
  | case2 lineLen a b =>
    simp only [encodeLines, List.length_cons, List.length_nil]
    omega
  | case3 lineLen a =>
    simp only [encodeLines, List.length_cons, List.length_nil]
    omega
  | case4 lineLen begun =>
    simp only [encodeLines, begun, ne_eq, not_false_eq_true, ↓reduceIte, List.length_cons,
      List.length_nil]
    omega
  | case5 lineLen fresh =>
    rw [not_not] at fresh
    simp [encodeLines, fresh]

/-- Where the product does not overflow the size is the intended one, and where it does the size is
less than the length. -/
theorem base64Olen_toNat {n : Nat} (word : n < 2 ^ 64) :
    (n < 2 ^ 62 ∧ (base64Olen (UInt64.ofNat n)).toNat =
        4 * n / 3 + 4 + (4 * n / 3 + 4) / 72 + 1) ∨
      base64Olen (UInt64.ofNat n) < UInt64.ofNat n := by
  have len : (UInt64.ofNat n).toNat = n := by
    rw [UInt64.toNat_ofNat']
    exact Nat.mod_eq_of_lt word
  have size : (base64Olen (UInt64.ofNat n)).toNat =
      4 * n % 2 ^ 64 / 3 + 4 + (4 * n % 2 ^ 64 / 3 + 4) / 72 + 1 := by
    simp only [base64Olen, UInt64.toNat_add, UInt64.toNat_div, UInt64.toNat_mul, len,
      UInt64.reduceToNat, Nat.mul_comm n 4]
    have below : 4 * n % 2 ^ 64 < 2 ^ 64 := Nat.mod_lt _ (Nat.two_pow_pos 64)
    generalize 4 * n % 2 ^ 64 = product at below
    simp (disch := omega) only [Nat.mod_eq_of_lt]
  by_cases small : n < 2 ^ 62
  · left
    refine ⟨small, ?_⟩
    rw [size, Nat.mod_eq_of_lt (by omega)]
  · right
    rw [UInt64.lt_iff_toNat_lt, size, len]
    omega

/-- The bytes of the output with the NUL behind them are as many as four for each group of three
begun, a newline for each 72 characters begun and the NUL, and they fit the buffer. -/
theorem gfcBase64Encode_fits {src out : List UInt8} (word : src.length < 2 ^ 64)
    (encoded : gfcBase64Encode src = some out) :
    (out ++ [0]).length =
        4 * ((src.length + 2) / 3) + (4 * ((src.length + 2) / 3) + 71) / 72 + 1 ∧
      (out ++ [0]).length ≤ (base64Olen (UInt64.ofNat src.length)).toNat := by
  rw [gfcBase64Encode_eq] at encoded
  split at encoded
  · cases encoded
  · rename_i roomy
    cases encoded
    obtain ⟨small, size⟩ := (base64Olen_toNat word).resolve_right roomy
    have written := length_encodeLines 0 src (by decide) rfl
    rw [Nat.zero_add] at written
    rw [List.length_append, List.length_singleton, written, size]
    exact ⟨rfl, by omega⟩

theorem gfcBase64Encode_fits_digits :
    (encodeLines 0 (CText.utf8 "1234567890") ++ [0]).length =
        4 * (((CText.utf8 "1234567890").length + 2) / 3) +
          (4 * (((CText.utf8 "1234567890").length + 2) / 3) + 71) / 72 + 1 ∧
      (encodeLines 0 (CText.utf8 "1234567890") ++ [0]).length ≤
        (base64Olen (UInt64.ofNat (CText.utf8 "1234567890").length)).toNat :=
  gfcBase64Encode_fits (by decide +kernel) (gfcBase64Encode_some (by decide +kernel))

/-! ### The way back -/

/-- A newline stands behind every 72 characters and at the end, where the line goes on from
`lineLen` characters. -/
def LineFed (lineLen : Nat) (out : List UInt8) : Prop :=
  ∀ k (inside : k < out.length),
    out[k] = newline ↔ (lineLen + k) % 73 = 72 ∨ k + 1 = out.length

theorem charAt_ne_newline {i : UInt8} (less : i.toNat < 64) : charAt base64Table i ≠ newline := by
  intro same
  have unknown : dtable newline = 0x80 := by decide +kernel
  exact dtable_charAt less (same ▸ unknown)

theorem newline_not_mem_group (a b c : UInt8) : newline ∉ group a b c := by
  simp only [group, List.mem_cons, not_or]
  exact ⟨(charAt_ne_newline (first_lt a)).symm, (charAt_ne_newline (second_lt a b)).symm,
    (charAt_ne_newline (third_lt b c)).symm, (charAt_ne_newline (fourth_lt c)).symm,
    List.not_mem_nil⟩

/-- Characters that do not fill the line come before what is line fed. -/
theorem LineFed.append {lineLen : Nat} (chars : List UInt8) {rest : List UInt8}
    (clean : newline ∉ chars) (fits : lineLen + chars.length ≤ 72) (nonempty : rest ≠ [])
    (fed : LineFed (lineLen + chars.length) rest) : LineFed lineLen (chars ++ rest) := by
  intro k inside
  have := List.length_pos_iff.mpr nonempty
  rw [List.length_append] at inside ⊢
  by_cases within : k < chars.length
  · rw [List.getElem_append_left within]
    refine iff_of_false (fun same => clean (same ▸ List.getElem_mem within)) ?_
    omega
  · rw [List.getElem_append_right (Nat.le_of_not_lt within), fed (k - chars.length) (by omega)]
    refine or_congr ?_ ?_
    · rw [show lineLen + chars.length + (k - chars.length) = lineLen + k by omega]
    · omega

/-- The newline that ends a full line, before the next one. -/
theorem LineFed.newline {rest : List UInt8} (fed : LineFed 0 rest) :
    LineFed 72 (newline :: rest) := by
  intro k inside
  cases k with
  | zero => exact iff_of_true rfl (.inl rfl)
  | succ k =>
    rw [List.length_cons] at inside ⊢
    rw [List.getElem_cons_succ, fed k (by omega)]
    exact or_congr (by omega) (by omega)

theorem lineFed_end (lineLen : Nat) : LineFed lineLen [Bytes.newline] := by
  intro k inside
  obtain rfl : k = 0 := by simpa using inside
  exact iff_of_true rfl (.inr rfl)

theorem encodeLines_lineFed (lineLen : Nat) (x : List UInt8) (inside : lineLen < 72)
    (aligned : lineLen % 4 = 0) : LineFed lineLen (encodeLines lineLen x) := by
  induction lineLen, x using encodeLines.induct with
  | case1 lineLen a b c rest ih0 ih =>
    rw [encodeLines_cons]
    have clean := newline_not_mem_group a b c
    have fits : lineLen + (group a b c).length ≤ 72 := by
      rw [length_group]
      omega
    split
    · rename_i full
      refine .append _ clean fits (List.cons_ne_nil _ _) ?_
      rw [length_group, show lineLen + 4 = 72 by omega]
      exact (ih0 (by decide) rfl).newline
    · rename_i open_line
      have more := length_encodeLines (lineLen + 4) rest (by omega) (by omega)
      exact .append _ clean fits (List.ne_nil_of_length_pos (by omega)) (ih (by omega) (by omega))
  | case2 lineLen a b =>
    rw [encodeLines, ← third_zero]
    refine LineFed.append [_, _, _, padding] ?_ ?_ (List.cons_ne_nil _ _)
      (lineFed_end _)
    · simp only [List.mem_cons, not_or]
      exact ⟨(charAt_ne_newline (first_lt a)).symm, (charAt_ne_newline (second_lt a b)).symm,
        (charAt_ne_newline (third_lt b 0)).symm, by decide, List.not_mem_nil⟩
    · simp only [List.length_cons, List.length_nil]
      omega
  | case3 lineLen a =>
    rw [encodeLines, ← second_zero]
    refine LineFed.append [_, _, padding, padding] ?_ ?_ (List.cons_ne_nil _ _)
      (lineFed_end _)
    · simp only [List.mem_cons, not_or]
      exact ⟨(charAt_ne_newline (first_lt a)).symm, (charAt_ne_newline (second_lt a 0)).symm,
        by decide, by decide, List.not_mem_nil⟩
    · simp only [List.length_cons, List.length_nil]
      omega
  | case4 lineLen begun =>
    rw [encodeLines, if_pos begun]
    exact lineFed_end lineLen
  | case5 lineLen fresh =>
    rw [encodeLines, if_neg fresh]
    exact fun k inside => absurd inside (Nat.not_lt_zero k)

theorem encodeLines_pair (lineLen : Nat) (a b : UInt8) :
    encodeLines lineLen [a, b] = gfcCryptoBase64Encode [a, b] ++ [newline] := by
  rw [encodeLines, ← third_zero, gfcCryptoBase64Encode_pair]
  rfl

theorem encodeLines_single (lineLen : Nat) (a : UInt8) :
    encodeLines lineLen [a] = gfcCryptoBase64Encode [a] ++ [newline] := by
  rw [encodeLines, ← second_zero, gfcCryptoBase64Encode_single]
  rfl

/-- What `gfc_base64_decode` does not skip are the characters of the codec without newlines. -/
theorem known_encodeLines (lineLen : Nat) (x : List UInt8) :
    (encodeLines lineLen x).filter (fun c => dtable c != 0x80) = gfcCryptoBase64Encode x := by
  have skipped : (dtable newline != 0x80) = false := by decide +kernel
  induction lineLen, x using encodeLines.induct with
  | case1 lineLen a b c rest ih0 ih =>
    have known : (group a b c).filter (fun c => dtable c != 0x80) = group a b c := by
      have whole := filter_encode [a, b, c]
      rwa [gfcCryptoBase64Encode_cons] at whole
    rw [encodeLines_cons, List.filter_append, known, gfcCryptoBase64Encode_cons]
    split
    · rename_i full
      rw [List.filter_cons, skipped, ih0]
      rfl
    · rw [ih]
      rfl
  | case2 lineLen a b =>
    rw [encodeLines_pair, List.filter_append, filter_encode, List.filter_cons, skipped]
    exact List.append_nil _
  | case3 lineLen a =>
    rw [encodeLines_single, List.filter_append, filter_encode, List.filter_cons, skipped]
    exact List.append_nil _
  | case4 lineLen begun =>
    rw [encodeLines, if_pos begun, List.filter_cons, skipped]
    rfl
  | case5 lineLen fresh =>
    rw [encodeLines, if_neg fresh]
    rfl

/-- Decoding gives the encoded bytes back. -/
theorem gfcBase64Decode_gfcBase64Encode {x out : List UInt8} (nonempty : x ≠ [])
    (encoded : gfcBase64Encode x = some out) :
    LineFed 0 out ∧ gfcBase64Decode out = some x := by
  rw [gfcBase64Encode_eq] at encoded
  split at encoded
  · cases encoded
  · cases encoded
    refine ⟨encodeLines_lineFed 0 x (by decide) rfl, ?_⟩
    have decoded := gfcBase64Decode_encode nonempty
    rw [gfcBase64Decode, filter_encode] at decoded
    rwa [gfcBase64Decode, known_encodeLines]

theorem gfcBase64Decode_gfcBase64Encode_digits :
    LineFed 0 (encodeLines 0 (CText.utf8 "1234567890")) ∧
      gfcBase64Decode (encodeLines 0 (CText.utf8 "1234567890")) =
        some (CText.utf8 "1234567890") :=
  gfcBase64Decode_gfcBase64Encode (by decide +kernel) (gfcBase64Encode_some (by decide +kernel))

end Guardwatch
