import Guardwatch.Lib.CString
import Mathlib.Data.UInt
import Mathlib.Algebra.BigOperators.Group.List.Basic

/-! The characters of a text in `gfc_utf8.c`: which texts `gfc_utf8_convert` splits without leaving
the text or the array of its characters. -/

namespace Guardwatch

/-- `gfc_utf8_char_t`. -/
structure GfcUtf8Char where
  bytes : Fin 4 → UInt8
  length : Int32

/-- `gfc_utf8_string_t`. -/
structure GfcUtf8String where
  chars : List GfcUtf8Char
  length : Int32

def gfcUtf8Continuation (c : UInt8) : Bool := decide (c &&& 0xC0 = 0x80)

def gfcUtf8Length (str : CText) : UInt32 :=
  UInt32.ofNat (str.bytes.countP fun c => !gfcUtf8Continuation c)

/-- The bytes that the branch for a first byte stores. -/
def announced (ch : UInt8) : Nat :=
  if ch &&& 0b11110000 = 0b11110000 then 4
  else if ch &&& 0b11100000 = 0b11100000 then 3
  else if ch &&& 0b11000000 = 0b11000000 then 2
  else 1

/-- The assignments to the bytes of the character; its length is not assigned. -/
def GfcUtf8Char.store (char : GfcUtf8Char) (bytes : List UInt8) : GfcUtf8Char :=
  { char with bytes := fun k => bytes[k.val]?.getD (char.bytes k) }

/-- A branch of the loop. It is `none` where it writes behind the array, reads behind the NUL, or
where `i` overflows. -/
def utf8Store (str : CText) (i index size : Nat) (out : GfcUtf8String) : Option GfcUtf8String :=
  if i + size < 2 ^ 31 then do
    let char ← out.chars[index]?
    let bytes ← str.read i size
    some { chars := out.chars.set index (char.store bytes), length := Int32.ofNat size }
  else none

/-- The loop of `gfc_utf8_convert`, which takes at most one turn for each byte. -/
def utf8Fill (str : CText) (len : Int32) : (turns i index : Nat) → GfcUtf8String →
    Option GfcUtf8String
  | 0, _, _, _ => none
  | turns + 1, i, index, out =>
    if (i : Int) < len.toInt then do
      let bytes ← str.read i 1
      let ch ← bytes.head?
      if ch = 0 then some out
      else
        let out ← utf8Store str i index (announced ch) out
        utf8Fill str len turns (i + announced ch) (index + 1) out
    else some out

/-- The returned number and the string. The allocated array has the contents that its memory had
before; there is none for a negative number of entries, whose bytes are nearly 2^64. -/
def gfcUtf8Convert (memory : Nat → GfcUtf8Char) (str : CText) : Option (UInt32 × GfcUtf8String) :=
  let len := Int32.ofNat str.bytes.length
  let utf8len := (gfcUtf8Length str).toInt32
  let out :=
    { chars := (List.range utf8len.toInt.toNat).map memory, length := utf8len : GfcUtf8String }
  (utf8Fill str len (str.bytes.length + 1) 0 0 out).map fun out => (utf8len.toUInt32, out)

/-! ### Bounds -/

/-- The bytes that the branches store for a text, behind the first `skip` bytes, which belong to the
character before. -/
def announcedSizes : (skip : Nat) → List UInt8 → List Nat
  | _, [] => []
  | skip + 1, _ :: text => announcedSizes skip text
  | 0, ch :: text => announced ch :: announcedSizes (announced ch - 1) text

/-- The characters that are announced in the part of the string that the loop visits are not more
than the array has entries, and the last of them ends with the NUL, or before it. -/
def Splittable (str : CText) : Prop :=
  let sizes := announcedSizes 0 (str.bytes.take (Int32.ofNat str.bytes.length).toInt.toNat)
  sizes.length ≤ (gfcUtf8Length str).toInt32.toInt.toNat ∧
    sizes.sum ≤ str.bytes.length + 1 ∧ sizes.sum < 2 ^ 31

instance (str : CText) : Decidable (Splittable str) :=
  inferInstanceAs (Decidable (_ ∧ _ ∧ _))

variable {str : CText} {len : Int32} {i index size : Nat} {out : GfcUtf8String} {ch : UInt8}

theorem announced_pos (ch : UInt8) : 0 < announced ch := by
  unfold announced
  split_ifs <;> decide

theorem announcedSizes_drop (skip : Nat) (text : List UInt8) :
    announcedSizes skip text = announcedSizes 0 (text.drop skip) := by
  induction skip generalizing text with
  | zero => rfl
  | succ skip ih =>
    cases text with
    | nil => rfl
    | cons c text => exact ih text

theorem announcedSizes_cons (ch : UInt8) (text : List UInt8) :
    announcedSizes 0 (ch :: text) =
      announced ch :: announcedSizes 0 ((ch :: text).drop (announced ch)) := by
  obtain ⟨size, same⟩ := Nat.exists_eq_add_one_of_ne_zero (Nat.ne_of_gt (announced_pos ch))
  rw [announcedSizes, announcedSizes_drop, same]
  rfl

theorem utf8Store_some_iff :
    (∃ out', utf8Store str i index size out = some out') ↔
      i + size < 2 ^ 31 ∧ index < out.chars.length ∧ i + size ≤ str.bytes.length + 1 := by
  unfold utf8Store CText.read
  split
  · rename_i small
    by_cases inside : index < out.chars.length
    · rw [List.getElem?_eq_getElem inside]
      by_cases ends : i + size ≤ str.bytes.length + 1 <;>
        simp [-Nat.reducePow, ends, inside, small]
    · simp [inside]
  · rename_i large
    simp [-Nat.reducePow, large]

theorem utf8Store_length {out' : GfcUtf8String}
    (stored : utf8Store str i index size out = some out') :
    out'.chars.length = out.chars.length := by
  unfold utf8Store at stored
  split at stored
  · obtain ⟨char, -, stored⟩ := Option.bind_eq_some_iff.mp stored
    obtain ⟨bytes, -, stored⟩ := Option.bind_eq_some_iff.mp stored
    cases stored
    exact List.length_set
  · cases stored

theorem utf8Fill_turn {turns : Nat} (more : (i : Int) < len.toInt) (inside : i < str.bytes.length) :
    utf8Fill str len (turns + 1) i index out =
      (utf8Store str i index (announced str.bytes[i]) out).bind
        (utf8Fill str len turns (i + announced str.bytes[i]) (index + 1)) := by
  obtain ⟨reads, nonzero⟩ := CText.read_one inside
  rw [utf8Fill, if_pos more, reads]
  dsimp only [Option.bind_eq_bind, Option.bind_some, List.head?_cons]
  rw [if_neg nonzero]

/-- From a character on, the loop comes through where the characters announced from there on fit. -/
theorem utf8Fill_some_iff {turns : Nat} (visited : len.toInt ≤ str.bytes.length)
    (enough : len.toInt - i < turns) (positive : 0 < turns) (entry : index ≤ out.chars.length)
    (small : i < 2 ^ 31) (ends : i ≤ str.bytes.length + 1) :
    (∃ out', utf8Fill str len turns i index out = some out') ↔
      let sizes := announcedSizes 0 ((str.bytes.take len.toInt.toNat).drop i)
      index + sizes.length ≤ out.chars.length ∧
        i + sizes.sum ≤ str.bytes.length + 1 ∧ i + sizes.sum < 2 ^ 31 := by
  induction turns generalizing i index out with
  | zero => exact absurd positive (Nat.lt_irrefl 0)
  | succ turns ih =>
    by_cases more : (i : Int) < len.toInt
    · have inside : i < str.bytes.length := by omega
      have visits : i < (str.bytes.take len.toInt.toNat).length := by
        rw [List.length_take]
        omega
      have size_pos := announced_pos str.bytes[i]
      rw [utf8Fill_turn more inside, List.drop_eq_getElem_cons visits, announcedSizes_cons,
        ← List.drop_eq_getElem_cons visits, List.drop_drop, List.getElem_take]
      generalize announced str.bytes[i] = size at size_pos
      simp only [List.length_cons, List.sum_cons]
      cases stored : utf8Store str i index size out with
      | none =>
        have misses := mt utf8Store_some_iff.mpr
          (show ¬∃ out', utf8Store str i index size out = some out' by rw [stored]; nofun)
        refine iff_of_false nofun fun fits => misses ?_
        omega
      | some out' =>
        obtain ⟨small', inside', ends'⟩ := utf8Store_some_iff.mp ⟨out', stored⟩
        have length := utf8Store_length stored
        rw [Option.bind_some, ih (by omega) (by omega) (by omega) small' ends', length]
        dsimp only
        rw [Nat.add_assoc index, Nat.add_comm 1, Nat.add_assoc i]
    · have past : (str.bytes.take len.toInt.toNat).drop i = [] :=
        List.drop_eq_nil_of_le (by rw [List.length_take]; omega)
      rw [utf8Fill, if_neg more]
      simp only [past, announcedSizes, List.length_nil, List.sum_nil]
      exact iff_of_true ⟨out, rfl⟩ ⟨entry, ends, small⟩

theorem int32_ofNat_le (n : Nat) : (Int32.ofNat n).toInt ≤ n := by
  have size : Int32.size = 4294967296 := rfl
  rw [Int32.toInt_ofNat', size, Int.bmod_eq_emod]
  split <;> omega

/-- The conversion stays inside the string and the array if and only if the characters fit that the
first bytes announce. -/
theorem gfcUtf8Convert_ne_none_iff (memory : Nat → GfcUtf8Char) (str : CText) :
    gfcUtf8Convert memory str ≠ none ↔ Splittable str := by
  have visited := int32_ofNat_le str.bytes.length
  rw [gfcUtf8Convert, ne_eq, Option.map_eq_none_iff, ← ne_eq, Option.ne_none_iff_exists',
    utf8Fill_some_iff visited (by omega) (by omega) (by omega) (by omega) (by omega)]
  simp [Splittable]

/-- For a stray continuation byte an array without entries is allocated, and the byte is stored. -/
theorem gfcUtf8Convert_fails :
    ¬∀ (memory : Nat → GfcUtf8Char) (str : CText), gfcUtf8Convert memory str ≠ none := by
  intro every
  refine every (fun _ => ⟨fun _ => 0, 0⟩) ⟨[0x80], by decide⟩ ?_
  rw [← Option.isNone_iff_eq_none]
  decide +kernel

end Guardwatch
