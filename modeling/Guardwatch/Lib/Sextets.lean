import Guardwatch.Lib.Bytes
import Mathlib.Data.List.Basic

/-! Three bytes as four numbers of six bits, and back. -/

namespace Sextets

open Bytes

def first (a : UInt8) : UInt8 := a >>> 2

def second (a b : UInt8) : UInt8 := (a &&& 3) <<< 4 ||| b >>> 4

def third (b c : UInt8) : UInt8 := (b &&& 15) <<< 2 ||| c >>> 6

def fourth (c : UInt8) : UInt8 := c &&& 63

def byte0 (s0 s1 : UInt8) : UInt8 := s0 <<< 2 ||| s1 >>> 4

def byte1 (s1 s2 : UInt8) : UInt8 := s1 <<< 4 ||| s2 >>> 2

def byte2 (s2 s3 : UInt8) : UInt8 := s2 <<< 6 ||| s3

/-! ### Arithmetic -/

section Values

variable (a b c : UInt8)

theorem toNat_first : (first a).toNat = a.toNat / 4 :=
  toNat_shiftRight a (k := 2) (by decide)

theorem toNat_second : (second a b).toNat = a.toNat % 4 * 16 + b.toNat / 16 := by
  have low : (b >>> 4).toNat = b.toNat / 16 := toNat_shiftRight b (k := 4) (by decide)
  have high : (a &&& 3).toNat = a.toNat % 4 := toNat_mask a (k := 2) (by decide)
  have := b.toNat_lt
  have joined := toNat_shiftLeft_or (a &&& 3) (b >>> 4) (k := 4) (by decide) (by omega)
  rw [high, low] at joined
  refine joined.trans ?_
  omega

theorem toNat_third : (third b c).toNat = b.toNat % 16 * 4 + c.toNat / 64 := by
  have low : (c >>> 6).toNat = c.toNat / 64 := toNat_shiftRight c (k := 6) (by decide)
  have high : (b &&& 15).toNat = b.toNat % 16 := toNat_mask b (k := 4) (by decide)
  have := c.toNat_lt
  have joined := toNat_shiftLeft_or (b &&& 15) (c >>> 6) (k := 2) (by decide) (by omega)
  rw [high, low] at joined
  refine joined.trans ?_
  omega

theorem toNat_fourth : (fourth c).toNat = c.toNat % 64 := toNat_mask c (k := 6) (by decide)

variable {s0 s1 s2 s3 : UInt8}

theorem toNat_byte0 (h1 : s1.toNat < 64) :
    (byte0 s0 s1).toNat = s0.toNat * 4 % 256 + s1.toNat / 16 := by
  have low : (s1 >>> 4).toNat = s1.toNat / 16 := toNat_shiftRight s1 (k := 4) (by decide)
  have joined := toNat_shiftLeft_or s0 (s1 >>> 4) (k := 2) (by decide) (by omega)
  rwa [low] at joined

theorem toNat_byte1 (h2 : s2.toNat < 64) :
    (byte1 s1 s2).toNat = s1.toNat * 16 % 256 + s2.toNat / 4 := by
  have low : (s2 >>> 2).toNat = s2.toNat / 4 := toNat_shiftRight s2 (k := 2) (by decide)
  have joined := toNat_shiftLeft_or s1 (s2 >>> 2) (k := 4) (by decide) (by omega)
  rwa [low] at joined

theorem toNat_byte2 (h3 : s3.toNat < 64) :
    (byte2 s2 s3).toNat = s2.toNat * 64 % 256 + s3.toNat :=
  toNat_shiftLeft_or s2 s3 (k := 6) (by decide) h3

end Values

/-! ### Three bytes and four numbers -/

section Groups

variable (a b c : UInt8)

theorem first_lt : (first a).toNat < 64 := by
  have := a.toNat_lt
  rw [toNat_first]
  omega

theorem second_lt : (second a b).toNat < 64 := by
  have := b.toNat_lt
  rw [toNat_second]
  omega

theorem third_lt : (third b c).toNat < 64 := by
  have := c.toNat_lt
  rw [toNat_third]
  omega

theorem fourth_lt : (fourth c).toNat < 64 := by
  rw [toNat_fourth]
  omega

theorem byte0_split : byte0 (first a) (second a b) = a := by
  have := a.toNat_lt
  have := b.toNat_lt
  rw [← UInt8.toNat_inj, toNat_byte0 (second_lt a b), toNat_first, toNat_second]
  omega

theorem byte1_split : byte1 (second a b) (third b c) = b := by
  have := b.toNat_lt
  have := c.toNat_lt
  rw [← UInt8.toNat_inj, toNat_byte1 (third_lt b c), toNat_second, toNat_third]
  omega

theorem byte2_split : byte2 (third b c) (fourth c) = c := by
  have := c.toNat_lt
  rw [← UInt8.toNat_inj, toNat_byte2 (fourth_lt c), toNat_third, toNat_fourth]
  omega

variable {s0 s1 s2 s3 : UInt8} (h0 : s0.toNat < 64) (h1 : s1.toNat < 64) (h2 : s2.toNat < 64)
  (h3 : s3.toNat < 64)

include h0 h1 in
theorem first_byte0 : first (byte0 s0 s1) = s0 := by
  rw [← UInt8.toNat_inj, toNat_first, toNat_byte0 h1]
  omega

include h1 h2 in
theorem second_bytes : second (byte0 s0 s1) (byte1 s1 s2) = s1 := by
  rw [← UInt8.toNat_inj, toNat_second, toNat_byte0 h1, toNat_byte1 h2]
  omega

include h2 h3 in
theorem third_bytes : third (byte1 s1 s2) (byte2 s2 s3) = s2 := by
  rw [← UInt8.toNat_inj, toNat_third, toNat_byte1 h2, toNat_byte2 h3]
  omega

include h3 in
theorem fourth_byte2 : fourth (byte2 s2 s3) = s3 := by
  rw [← UInt8.toNat_inj, toNat_fourth, toNat_byte2 h3]
  omega

end Groups

/-! ### Lists -/

/-- The numbers of the whole groups of three bytes. -/
def split : List UInt8 → List UInt8
  | a :: b :: c :: rest => first a :: second a b :: third b c :: fourth c :: split rest
  | _ => []

/-- The bytes of the whole groups of four numbers. -/
def join : List UInt8 → List UInt8
  | s0 :: s1 :: s2 :: s3 :: rest => byte0 s0 s1 :: byte1 s1 s2 :: byte2 s2 s3 :: join rest
  | _ => []

theorem split_join (l : List UInt8) (small : ∀ s ∈ l, s.toNat < 64) :
    split (join l) = l.take (4 * (l.length / 4)) := by
  induction l using join.induct with
  | case1 s0 s1 s2 s3 rest ih =>
    have length : 4 * ((s0 :: s1 :: s2 :: s3 :: rest).length / 4) =
        4 * (rest.length / 4) + 4 := by
      simp only [List.length_cons]
      omega
    simp only [List.forall_mem_cons] at small
    obtain ⟨h0, h1, h2, h3, small⟩ := small
    rw [length, join, split, first_byte0 h0 h1, second_bytes h1 h2, third_bytes h2 h3,
      fourth_byte2 h3, ih small]
    rfl
  | case2 l short =>
    match l, short with
    | [], _ | [_], _ | [_, _], _ | [_, _, _], _ => simp [join, split]
    | s0 :: s1 :: s2 :: s3 :: rest, short => exact absurd rfl (short s0 s1 s2 s3 rest)

theorem length_join (l : List UInt8) : (join l).length = 3 * (l.length / 4) := by
  induction l using join.induct with
  | case1 s0 s1 s2 s3 rest ih =>
    simp only [join, List.length_cons, ih]
    omega
  | case2 l short =>
    match l, short with
    | [], _ | [_], _ | [_, _], _ | [_, _, _], _ => simp [join]
    | s0 :: s1 :: s2 :: s3 :: rest, short => exact absurd rfl (short s0 s1 s2 s3 rest)

theorem length_split (l : List UInt8) : (split l).length = 4 * (l.length / 3) := by
  induction l using split.induct with
  | case1 a b c rest ih =>
    simp only [split, List.length_cons, ih]
    omega
  | case2 l short =>
    match l, short with
    | [], _ | [_], _ | [_, _], _ => simp [split]
    | a :: b :: c :: rest, short => exact absurd rfl (short a b c rest)

/-! ### Zeros -/

theorem join_zero (l : List UInt8) (zero : ∀ s ∈ l, s = 0) : ∀ b ∈ join l, b = 0 := by
  induction l using join.induct with
  | case1 s0 s1 s2 s3 rest ih =>
    simp only [List.forall_mem_cons] at zero
    obtain ⟨rfl, rfl, rfl, rfl, zero⟩ := zero
    simp only [join, List.forall_mem_cons]
    exact ⟨rfl, rfl, rfl, ih zero⟩
  | case2 l short =>
    match l, short with
    | [], _ | [_], _ | [_, _], _ | [_, _, _], _ => simp [join]
    | s0 :: s1 :: s2 :: s3 :: rest, short => exact absurd rfl (short s0 s1 s2 s3 rest)

theorem split_zero (l : List UInt8) (whole : l.length % 3 = 0) :
    (∀ s ∈ split l, s = 0) ↔ ∀ b ∈ l, b = 0 := by
  induction l using split.induct with
  | case1 a b c rest ih =>
    have whole : rest.length % 3 = 0 := by
      simp only [List.length_cons] at whole
      omega
    simp only [split, List.forall_mem_cons, ih whole]
    constructor
    · rintro ⟨h0, h1, h2, h3, zero⟩
      refine ⟨?_, ?_, ?_, zero⟩
      · rw [← byte0_split a b, h0, h1]
        rfl
      · rw [← byte1_split a b c, h1, h2]
        rfl
      · rw [← byte2_split b c, h2, h3]
        rfl
    · rintro ⟨rfl, rfl, rfl, zero⟩
      exact ⟨rfl, rfl, rfl, rfl, zero⟩
  | case2 l short =>
    match l, short with
    | [], _ => simp [split]
    | [_], _ | [_, _], _ => exact absurd whole (by simp)
    | a :: b :: c :: rest, short => exact absurd rfl (short a b c rest)

/-- The first list is the second one with zeros put in. -/
inductive Spaced : List UInt8 → List UInt8 → Prop
  | nil : Spaced [] []
  | zero {l m : List UInt8} : Spaced l m → Spaced (0 :: l) m
  | next {l m : List UInt8} (s : UInt8) : Spaced l m → Spaced (s :: l) (s :: m)

theorem Spaced.append {l m : List UInt8} (spaced : Spaced l m) (front : List UInt8) :
    Spaced (front ++ l) (front ++ m) := by
  induction front with
  | nil => exact spaced
  | cons s front ih => exact .next s ih

theorem Spaced.all_zero {l m : List UInt8} (spaced : Spaced l m) (zero : ∀ s ∈ m, s = 0) :
    ∀ s ∈ l, s = 0 := by
  induction spaced with
  | nil => exact nofun
  | zero _ ih =>
    rw [List.forall_mem_cons]
    exact ⟨rfl, ih zero⟩
  | next s _ ih =>
    rw [List.forall_mem_cons] at zero ⊢
    exact ⟨zero.1, ih zero.2⟩

/-- A list that is what it was after zeros were put in front of it has only zeros. -/
theorem Spaced.zero_of_shift {l m : List UInt8} (spaced : Spaced l m) (front : List UInt8)
    (front_zero : ∀ s ∈ front, s = 0) (nonempty : front ≠ [])
    (same : (front ++ l).take m.length = m) : ∀ s ∈ m, s = 0 := by
  induction spaced generalizing front with
  | nil => exact nofun
  | zero spaced ih =>
    refine ih (front ++ [0]) ?_ (by simp) (by simpa using same)
    intro s member
    rcases List.mem_append.mp member with old | new
    · exact front_zero s old
    · exact List.mem_singleton.mp new
  | next s spaced ih =>
    cases front with
    | nil => exact absurd rfl nonempty
    | cons z front =>
      rw [List.forall_mem_cons] at front_zero
      obtain ⟨rfl, front_zero⟩ := front_zero
      simp only [List.cons_append, List.length_cons, List.take_succ_cons, List.cons.injEq] at same
      obtain ⟨rfl, same⟩ := same
      refine List.forall_mem_cons.mpr
        ⟨rfl, ih (front ++ [0]) ?_ (by simp) (by simpa using same)⟩
      intro s member
      rcases List.mem_append.mp member with old | new
      · exact front_zero s old
      · exact List.mem_singleton.mp new

end Sextets
