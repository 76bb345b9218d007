import Guardwatch.Lib.UriPath
import Guardwatch.Mongoose.Serve

/-! The files that `mg_serve_http` can reach: those below the document root, whatever the URI is. -/

namespace Guardwatch.Mongoose

open Bytes UriPath

/-! ### Components -/

variable {base lp component s name : List UInt8} {names : List (List UInt8)} {root size : Nat}

theorem solid_plain (solid : slash ∉ name) : ∀ c ∈ name, decide (c ≠ 47) = true := by
  intro c mem
  refine decide_eq_true ?_
  rintro rfl
  exact solid mem

theorem solid_reverse (solid : slash ∉ name) : ∀ c ∈ name.reverse, decide (c ≠ 47) = true :=
  fun c mem => solid_plain solid c (List.mem_reverse.mp mem)

/-- Back to the slash in front of the last name. -/
theorem dropWhile_name (solid : slash ∉ name) :
    ((s ++ slash :: name).reverse.dropWhile (· ≠ 47)).reverse = s ++ [slash] := by
  rw [List.reverse_append, List.reverse_cons, List.append_assoc,
    List.dropWhile_append_of_pos (solid_reverse solid)]
  simp [slash]

theorem urlDecode_length {src name : List UInt8} {room : Nat}
    (decoded : mgUrlDecode src room = some name) : name.length ≤ src.length := by
  fun_induction mgUrlDecode src room generalizing name with
  | case1 =>
    cases decoded
    exact Nat.le_refl _
  | case2 => cases decoded
  | case3 room a b src digits ih =>
    obtain ⟨rest, behind, rfl⟩ := Option.map_eq_some_iff.mp decoded
    have := ih behind
    simp only [List.length_cons]
    omega
  | case4 => cases decoded
  | case5 => cases decoded
  | case6 c src room plain ih =>
    obtain ⟨rest, behind, rfl⟩ := Option.map_eq_some_iff.mp decoded
    exact Nat.succ_le_succ (ih behind)

variable {files : Files} {hm : HttpHead} {uri path pathInfo file index : List UInt8}

/-- No special characters of patterns. -/
def plainPattern (pattern : List UInt8) : Bool :=
  pattern.all fun c => !([36, 42, 44, 63, 124].contains c)

section Patterns

variable {sub : List UInt8 → List UInt8 → Nat} {pattern ps str cs : List UInt8} {p c : UInt8}
  {separator : UInt8} {j : Nat}

theorem plainPattern_cons (plain : plainPattern (p :: ps) = true) :
    (p ≠ 36 ∧ p ≠ 42 ∧ p ≠ 63) ∧ plainPattern ps = true := by
  rw [plainPattern, List.all_cons, Bool.and_eq_true, ← plainPattern] at plain
  have special := plain.1
  simp only [List.contains_cons, List.contains_nil, Bool.or_false, Bool.not_eq_true',
    Bool.or_eq_false_iff, beq_eq_false_iff_ne] at special
  exact ⟨⟨special.1, special.2.1, special.2.2.2.1⟩, plain.2⟩

theorem matchFrom_char (plain : plainPattern (p :: ps) = true) (pattern : List UInt8) :
    matchFrom sub (p :: pattern) (c :: cs) j =
      if tolower p = tolower c then matchFrom sub pattern cs (j + 1) else 0 := by
  obtain ⟨-, star, question⟩ := (plainPattern_cons plain).1
  rw [matchFrom, if_neg question, if_neg star, ite_not]

/-- A pattern without special characters matches the texts that begin with it in any case. -/
theorem matchFrom_plain (plain : plainPattern pattern = true) :
    matchFrom sub pattern str j =
      if pattern.map tolower <+: str.map tolower then j + pattern.length else 0 := by
  induction pattern generalizing str j with
  | nil => simp [matchFrom]
  | cons p ps ih =>
    obtain ⟨special, rest⟩ := plainPattern_cons plain
    cases str with
    | nil => simp [matchFrom, special.1]
    | cons c cs =>
      rw [matchFrom_char plain]
      simp only [List.map_cons, List.cons_prefix_cons, ih rest, List.length_cons]
      by_cases same : tolower p = tolower c
      · simp only [same, if_true, true_and]
        split_ifs <;> omega
      · rw [if_neg same, if_neg fun both => same both.1]

theorem plainPattern_absent (plain : plainPattern pattern = true)
    (special : separator ∈ [44, 124]) : separator ∉ pattern := by
  intro inside
  have member := List.all_eq_true.mp plain separator inside
  rcases List.mem_pair.mp special with rfl | rfl <;> cases member

theorem splitPattern_absent (absent : separator ∉ pattern) :
    splitPattern separator pattern = none :=
  if_neg fun inside => absent (List.contains_iff_mem.mp inside)

theorem matchPrefix_plain (plain : plainPattern pattern = true) :
    mgMatchPrefix pattern str =
      if pattern.map tolower <+: str.map tolower then pattern.length else 0 := by
  rw [mgMatchPrefix, mgMatchPrefixN, splitPattern_absent (plainPattern_absent plain (by decide)),
    splitPattern_absent (plainPattern_absent plain (by decide))]
  dsimp only [Option.orElse]
  rw [matchFrom_plain plain, Nat.zero_add]

end Patterns

/-- A name that begins with `.htpasswd`, in any case. -/
def HiddenName (name : List UInt8) : Prop :=
  perDirectoryAuthFile.map tolower <+: name.map tolower

instance (name : List UInt8) : Decidable (HiddenName name) :=
  inferInstanceAs (Decidable (_ <+: _))

theorem isFileHidden_iff (path : List UInt8) :
    mgIsFileHidden path = true ↔ HiddenName (lastName path) := by
  rw [mgIsFileHidden, matchPrefix_plain (by decide), HiddenName]
  split_ifs with hidden
  · exact iff_of_true (beq_self_eq_true _) hidden
  · exact iff_of_false (by decide) hidden

theorem serverWebRoot_ne (resourcesPath : List UInt8) : serverWebRoot resourcesPath ≠ [] :=
  List.append_ne_nil_of_right_ne_nil _ (by decide)

theorem localRoot_serverWebRoot (resourcesPath : List UInt8) :
    localRoot (serverWebRoot resourcesPath) = serverWebRoot resourcesPath := by
  have last : (CText.utf8 "/www").getLast? = some 119 := by decide
  refine if_neg ?_
  rw [serverWebRoot, List.getLast?_append, last, Option.some_or]
  decide

end Guardwatch.Mongoose