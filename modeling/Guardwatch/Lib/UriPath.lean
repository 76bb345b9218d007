import Guardwatch.Lib.Bytes

/-! Paths as names below a root, and names in percent encoding. -/

namespace UriPath

open Bytes

/-- A name that a directory entry of its own can have. -/
structure IsName (name : List UInt8) : Prop where
  ne : name ≠ []
  not_dot : name ≠ dot
  not_dotDot : name ≠ dotDot
  no_slash : slash ∉ name
  no_nul : 0 ∉ name

instance (name : List UInt8) : Decidable (IsName name) :=
  decidable_of_iff (name ≠ [] ∧ name ≠ dot ∧ name ≠ dotDot ∧ slash ∉ name ∧ 0 ∉ name)
    ⟨fun ⟨ne, not_dot, not_dotDot, no_slash, no_nul⟩ => ⟨ne, not_dot, not_dotDot, no_slash, no_nul⟩,
      fun ⟨ne, not_dot, not_dotDot, no_slash, no_nul⟩ =>
        ⟨ne, not_dot, not_dotDot, no_slash, no_nul⟩⟩

/-- The path of an entry below a root. -/
def below (names : List (List UInt8)) : List UInt8 := names.flatMap (slash :: ·)

/-! ### Percent encoding -/

def hexValue (c : UInt8) : Option UInt8 :=
  if 48 ≤ c ∧ c ≤ 57 then some (c - 48)
  else if 97 ≤ c ∧ c ≤ 102 then some (c - 87)
  else if 65 ≤ c ∧ c ≤ 70 then some (c - 55)
  else none

/-- The bytes that a text stands for; each percent sign has two digits behind it. -/
def decode : List UInt8 → Option (List UInt8)
  | [] => some []
  | c :: s =>
    if c = 37 then
      match s with
      | a :: b :: s =>
        match hexValue a, hexValue b with
        | some x, some y => (decode s).map ((16 * x + y) :: ·)
        | _, _ => none
      | _ => none
    else (decode s).map (c :: ·)

def hexDigit (n : UInt8) : UInt8 := if n < 10 then 48 + n else 55 + n

/-- The bytes that stay as they are. -/
def unreserved (c : UInt8) : Bool :=
  decide (48 ≤ c ∧ c ≤ 57) || decide (65 ≤ c ∧ c ≤ 90) || decide (97 ≤ c ∧ c ≤ 122) ||
    [45, 46, 95, 126].contains c

def encode (name : List UInt8) : List UInt8 :=
  name.flatMap fun c => if unreserved c then [c] else [37, hexDigit (c / 16), hexDigit (c % 16)]

theorem hexValue_hexDigit : ∀ n : UInt8, n < 16 → hexValue (hexDigit n) = some n :=
  Bytes.forall_uint8 (by decide +kernel)

theorem join_digits : ∀ c : UInt8, 16 * (c / 16) + c % 16 = c :=
  Bytes.forall_uint8 (by decide +kernel)

theorem digits_lt : ∀ c : UInt8, c / 16 < 16 ∧ c % 16 < 16 :=
  Bytes.forall_uint8 (by decide +kernel)

theorem hexDigit_ne : ∀ n : UInt8, n < 16 → hexDigit n ≠ slash :=
  Bytes.forall_uint8 (by decide +kernel)

theorem decode_cons {c : UInt8} (plain : c ≠ 37) (s : List UInt8) :
    decode (c :: s) = (decode s).map (c :: ·) := by
  rw [decode.eq_def]
  exact if_neg plain

theorem decode_escape {a b x y : UInt8} (first : hexValue a = some x) (second : hexValue b = some y)
    (s : List UInt8) : decode (37 :: a :: b :: s) = (decode s).map ((16 * x + y) :: ·) := by
  rw [decode.eq_def]
  simp only [if_true, first, second]

theorem decode_malformed {a b : UInt8} (malformed : hexValue a = none ∨ hexValue b = none)
    (s : List UInt8) : decode (37 :: a :: b :: s) = none := by
  rw [decode.eq_def]
  simp only [if_true]
  rcases malformed with first | second
  · rw [first]
  · rw [second]
    cases hexValue a <;> rfl

theorem decode_cut {s : List UInt8} (short : ∀ a b more, s ≠ a :: b :: more) :
    decode (37 :: s) = none := by
  cases s with
  | nil => rfl
  | cons a s =>
    cases s with
    | nil => rfl
    | cons b s => exact absurd rfl (short a b s)

/-- What is encoded is decoded again. -/
theorem decode_encode (name : List UInt8) : decode (encode name) = some name := by
  induction name with
  | nil => rfl
  | cons c name ih =>
    rw [encode, List.flatMap_cons, ← encode]
    by_cases plain : unreserved c = true
    · have not_percent : c ≠ 37 := by
        rintro rfl
        cases plain
      rw [if_pos plain, List.singleton_append, decode_cons not_percent, ih]
      rfl
    · obtain ⟨high, low⟩ := digits_lt c
      rw [if_neg plain]
      simp only [List.cons_append, List.nil_append]
      rw [decode_escape (hexValue_hexDigit _ high) (hexValue_hexDigit _ low), ih, Option.map_some,
        join_digits]

/-- An encoded name is one component of a URI. -/
theorem encode_component (name : List UInt8) : slash ∉ encode name := by
  intro mem
  obtain ⟨c, -, mem⟩ := List.mem_flatMap.mp mem
  obtain ⟨high, low⟩ := digits_lt c
  split at mem
  · rename_i plain
    obtain rfl := List.mem_singleton.mp mem
    cases plain
  · simp only [List.mem_cons, List.not_mem_nil, or_false] at mem
    rcases mem with percent | first | second
    · cases percent
    · exact hexDigit_ne _ high first.symm
    · exact hexDigit_ne _ low second.symm

/-! ### Paths -/

variable {names : List (List UInt8)} {name : List UInt8}

@[simp] theorem below_nil : below [] = [] := rfl

theorem below_append (front back : List (List UInt8)) :
    below (front ++ back) = below front ++ below back :=
  List.flatMap_append

theorem below_singleton (name : List UInt8) : below [name] = slash :: name :=
  List.flatMap_singleton ..

/-- A root, or the path of an entry below it. -/
def Within (root path : List UInt8) : Prop :=
  ∃ names, (∀ name ∈ names, IsName name) ∧ path = root ++ below names

theorem Within.entry {root path : List UInt8} (within : Within root path) (isName : IsName name) :
    Within root (path ++ slash :: name) := by
  obtain ⟨names, all, rfl⟩ := within
  refine ⟨names ++ [name], ?_, ?_⟩
  · exact List.forall_mem_append.mpr ⟨all, List.forall_mem_singleton.mpr isName⟩
  · rw [below_append, below_singleton, List.append_assoc]

theorem below_cons (name : List UInt8) (names : List (List UInt8)) :
    below (name :: names) = slash :: (name ++ below names) :=
  List.flatMap_cons

theorem below_tail {names : List (List UInt8)} (ne : names ≠ []) :
    below names = slash :: (below names).tail := by
  cases names with
  | nil => exact absurd rfl ne
  | cons name names => rw [below_cons, List.tail_cons]

/-- Every text that begins with a slash is a path. -/
theorem exists_below (s : List UInt8) :
    ∃ name names, (∀ c ∈ name :: names, slash ∉ c) ∧ slash :: s = below (name :: names) := by
  induction s with
  | nil => exact ⟨[], [], by simp, rfl⟩
  | cons c s ih =>
    obtain ⟨name, names, solid, same⟩ := ih
    -- A slash begins a name of its own; another byte goes to the first one.
    by_cases ends : c = slash
    · exact ⟨[], name :: names, List.forall_mem_cons.mpr ⟨List.not_mem_nil, solid⟩,
        by rw [ends, below_cons, same, List.nil_append]⟩
    · obtain ⟨here, rest⟩ := List.forall_mem_cons.mp solid
      refine ⟨c :: name, names, List.forall_mem_cons.mpr ⟨?_, rest⟩, ?_⟩
      · rw [List.mem_cons, not_or]
        exact ⟨Ne.symm ends, here⟩
      · rw [below_cons] at same ⊢
        rw [(List.cons.inj same).2, List.cons_append]

/-! ### Dot segments -/

/-- The names with which `.` and `..` are taken away, behind names that are resolved; a path that
ends in one of them is that of a directory. -/
def resolve : List (List UInt8) → List (List UInt8) → List (List UInt8)
  | front, [] => front
  | front, name :: more =>
    let front :=
      if name = dot then front
      else if name = dotDot then front.dropLast
      else front ++ [name]
    if more = [] ∧ (name = dot ∨ name = dotDot) then front ++ [[]] else resolve front more

theorem resolve_more {name : List UInt8} {front more : List (List UInt8)} (ne : more ≠ []) :
    resolve front (name :: more) = resolve
      (if name = dot then front else if name = dotDot then front.dropLast else front ++ [name])
      more := by
  rw [resolve]
  exact if_neg fun both => ne both.1

/-- No name is a dot segment. -/
def Resolved (names : List (List UInt8)) : Prop := ∀ name ∈ names, name ≠ dot ∧ name ≠ dotDot

theorem resolve_resolved {front names : List (List UInt8)} (resolved : Resolved names) :
    resolve front names = front ++ names := by
  induction names generalizing front with
  | nil => exact (List.append_nil front).symm
  | cons name more ih =>
    obtain ⟨here, rest⟩ := List.forall_mem_cons.mp resolved
    rw [resolve, if_neg here.1, if_neg here.2, if_neg fun both => both.2.elim here.1 here.2,
      ih rest, List.append_assoc, List.singleton_append]

theorem resolve_ne {names : List (List UInt8)} (ne : names ≠ []) (front : List (List UInt8)) :
    resolve front names ≠ [] := by
  induction names generalizing front with
  | nil => exact absurd rfl ne
  | cons name more ih =>
    rw [resolve]
    split
    · exact List.append_ne_nil_of_right_ne_nil _ (List.cons_ne_nil _ _)
    · rename_i plain
      cases more with
      | nil =>
        rw [not_and, not_or] at plain
        obtain ⟨one, two⟩ := plain rfl
        rw [if_neg one, if_neg two, resolve]
        exact List.append_ne_nil_of_right_ne_nil _ (List.cons_ne_nil _ _)
      | cons next more => exact ih (List.cons_ne_nil _ _) _

/-- What holds of the names that are no dot segments holds of what is resolved. -/
theorem resolve_forall {P : List UInt8 → Prop} (empty : P []) {front names : List (List UInt8)}
    (all : ∀ name ∈ names, name ≠ dot → name ≠ dotDot → P name) (written : ∀ name ∈ front, P name) :
    ∀ name ∈ resolve front names, P name := by
  induction names generalizing front with
  | nil => exact written
  | cons name more ih =>
    obtain ⟨here, rest⟩ := List.forall_mem_cons.mp all
    rw [resolve]
    have step : ∀ c ∈ (if name = dot then front else if name = dotDot then front.dropLast
        else front ++ [name]), P c := by
      split_ifs with one two
      · exact written
      · exact fun name mem => written name (List.mem_of_mem_dropLast mem)
      · exact List.forall_mem_append.mpr ⟨written, List.forall_mem_singleton.mpr (here one two)⟩
    split
    · exact List.forall_mem_append.mpr ⟨step, List.forall_mem_singleton.mpr empty⟩
    · exact ih rest step

theorem resolved_resolve (names : List (List UInt8)) : Resolved (resolve [] names) :=
  resolve_forall (by decide) (fun _ _ one two => ⟨one, two⟩) (List.forall_mem_nil _)

end UriPath
