import Guardwatch.Mongoose.WebRoot

/-! The file that a URI stands for: `mg_normalize_uri_path` resolves the dot segments,
`mg_uri_to_local_path` decodes the names and finds the file on the way. -/

namespace Guardwatch.Mongoose

open Bytes UriPath

variable {name next : List UInt8} {front names : List (List UInt8)}

/-! ### Dot segments -/

theorem parseUriComponent_last (solid : slash ∉ name) : parseUriComponent name = (name, []) := by
  have plain := solid_plain solid
  have taken : (name ++ []).takeWhile (· ≠ 47) = name ++ [].takeWhile (· ≠ 47) :=
    List.takeWhile_append_of_pos plain
  have left : (name ++ []).dropWhile (· ≠ 47) = [].dropWhile (· ≠ 47) :=
    List.dropWhile_append_of_pos plain
  rw [List.append_nil] at taken left
  rw [parseUriComponent, taken, left, List.takeWhile_nil, List.dropWhile_nil, List.append_nil]
  rfl

theorem parseUriComponent_slash (solid : slash ∉ name) :
    parseUriComponent (name ++ slash :: next) = (name, next) := by
  have plain := solid_plain solid
  rw [parseUriComponent, List.dropWhile_append_of_pos plain,
    CText.takeWhile_stop plain (by decide)]
  rfl

/-- `..` takes the last name. -/
theorem backtrack_below (solid : ∀ name ∈ front, slash ∉ name) :
    backtrack (below front ++ [slash]) = below front.dropLast ++ [slash] := by
  rcases List.eq_nil_or_concat front with rfl | ⟨front, name, rfl⟩
  · decide
  · rw [List.concat_eq_append] at solid ⊢
    have here : slash ∉ name := solid name (List.mem_append_right _ (List.mem_singleton_self _))
    have ends : (below (front ++ [name]) ++ [slash]).getLast? = some 47 :=
      List.getLast?_concat
    have longer : 1 < (below (front ++ [name]) ++ [slash]).length := by
      simp only [below_append, below_singleton, List.length_append, List.length_cons]
      omega
    rw [backtrack, if_pos ⟨longer, ends⟩, List.dropLast_concat, List.dropLast_concat, below_append,
      below_singleton]
    exact dropWhile_name here

theorem normalizeComponents_nil (fuel : Nat) (d : List UInt8) :
    normalizeComponents fuel [] d = d := by
  cases fuel <;> rfl

theorem normalizeComponents_succ (fuel : Nat) {s : List UInt8} (ne : s ≠ [])
    (parsed : parseUriComponent s = (name, next)) (written : ∀ name ∈ front, slash ∉ name) :
    normalizeComponents (fuel + 1) s (below front ++ [slash]) =
      if name = dot then normalizeComponents fuel next (below front ++ [slash])
      else if name = dotDot then normalizeComponents fuel next (below front.dropLast ++ [slash])
      else normalizeComponents fuel next
        (below front ++ [slash] ++ s.take (s.length - next.length)) := by
  rw [normalizeComponents, if_neg ne, parsed, ← backtrack_below written]
  rfl

theorem below_directory (front : List (List UInt8)) :
    below front ++ [slash] = below (front ++ [[]]) := by
  rw [below_append, below_singleton]

theorem normalizeComponents_last {fuel : Nat} (solid : slash ∉ name)
    (written : ∀ name ∈ front, slash ∉ name) (enough : name.length ≤ fuel) :
    normalizeComponents fuel name (below front ++ [slash]) = below (resolve front [name]) := by
  by_cases empty : name = []
  · rw [empty, normalizeComponents_nil, below_directory]
    rfl
  · have positive := List.length_pos_iff.mpr empty
    obtain ⟨fuel, rfl⟩ := Nat.exists_eq_add_of_le' (Nat.le_trans positive enough)
    rw [normalizeComponents_succ fuel empty (parseUriComponent_last solid) written, resolve]
    simp only [normalizeComponents_nil, List.length_nil, Nat.sub_zero, List.take_length,
      below_directory, true_and]
    by_cases one : name = dot
    · rw [if_pos one, if_pos one, if_pos (.inl one)]
    by_cases two : name = dotDot
    · rw [if_neg one, if_neg one, if_pos two, if_pos two, if_pos (.inr two)]
    · rw [if_neg one, if_neg one, if_neg two, if_neg two, if_neg (not_or.mpr ⟨one, two⟩),
        ← below_directory, resolve, below_append, below_singleton, List.append_assoc,
        List.singleton_append]

theorem take_component (name next : List UInt8) :
    (name ++ slash :: next).take ((name ++ slash :: next).length - next.length) =
      name ++ [slash] := by
  have split : name ++ slash :: next = (name ++ [slash]) ++ next := by simp
  rw [split, List.length_append, Nat.add_sub_cancel, List.take_left]

/-- The loop of `mg_normalize_uri_path` resolves the names that are left, behind those it has
written. -/
theorem normalizeComponents_resolve {fuel : Nat} (ne : names ≠ [])
    (solid : ∀ name ∈ names, slash ∉ name) (written : ∀ name ∈ front, slash ∉ name)
    (enough : (below names).tail.length ≤ fuel) :
    normalizeComponents fuel (below names).tail (below front ++ [slash]) =
      below (resolve front names) := by
  induction names generalizing front fuel with
  | nil => exact absurd rfl ne
  | cons name more ih =>
    obtain ⟨here, rest⟩ := List.forall_mem_cons.mp solid
    rw [below_cons, List.tail_cons] at enough ⊢
    cases more with
    | nil =>
      rw [below_nil, List.append_nil] at enough ⊢
      exact normalizeComponents_last here written enough
    | cons second more =>
      have behind : second :: more ≠ [] := List.cons_ne_nil _ _
      rw [below_tail behind] at enough ⊢
      rw [List.length_append, List.length_cons] at enough
      obtain ⟨fuel, rfl⟩ := Nat.exists_eq_add_of_le' (Nat.le_trans (by omega) enough : 1 ≤ fuel)
      have enough' : (below (second :: more)).tail.length ≤ fuel := by omega
      have unread : name ++ slash :: (below (second :: more)).tail ≠ [] :=
        List.append_ne_nil_of_right_ne_nil _ (List.cons_ne_nil _ _)
      rw [normalizeComponents_succ fuel unread (parseUriComponent_slash here) written,
        take_component, resolve_more behind]
      split_ifs
      · exact ih behind rest written enough'
      · exact ih behind rest (fun name mem => written name (List.mem_of_mem_dropLast mem)) enough'
      · have written' : ∀ c ∈ front ++ [name], slash ∉ c :=
          List.forall_mem_append.mpr ⟨written, List.forall_mem_singleton.mpr here⟩
        have step := ih behind rest written' enough'
        rw [below_append, below_singleton] at step
        rw [← step, List.append_assoc, List.append_assoc]
        rfl

/-- `mg_normalize_uri_path` resolves the dot segments of a path. -/
theorem normalizeUriPath_resolve (ne : names ≠ []) (solid : ∀ name ∈ names, slash ∉ name) :
    mgNormalizeUriPath (below names) = some (below (resolve [] names)) := by
  have text := below_tail ne
  have head : (below names).head? = some 47 := by
    rw [text]
    rfl
  have first : normalizeComponents (below names).length (below names) [] =
      normalizeComponents (below names).tail.length (below names).tail [slash] := by
    rw [text, List.length_cons, normalizeComponents, if_neg (List.cons_ne_nil _ _)]
    have parsed := @parseUriComponent_slash [] (below names).tail List.not_mem_nil
    have taken := take_component [] (below names).tail
    rw [List.nil_append] at parsed taken
    rw [parsed]
    dsimp only
    rw [taken, if_neg (by decide), if_neg (by decide)]
    rfl
  have run := normalizeComponents_resolve ne solid (List.forall_mem_nil _) (Nat.le_refl _)
  rw [show below [] ++ [slash] = [slash] from rfl, ← first] at run
  have full : below (resolve [] names) ≠ [] := by
    rw [below_tail (resolve_ne ne [])]
    exact List.cons_ne_nil _ _
  rw [mgNormalizeUriPath, if_neg (not_not.mpr head), run]
  dsimp only
  rw [if_neg full]

/-- A URI that begins with a slash is a path, and is normalized to the path without its dot
segments, which stays as it is when it is normalized again; another URI is refused. -/
theorem normalized_resolves (uri : List UInt8) :
    uri.head? ≠ some slash ∧ mgNormalizeUriPath uri = none ∨
      ∃ names, (∀ name ∈ names, slash ∉ name) ∧ uri = below names ∧ Resolved (resolve [] names) ∧
        mgNormalizeUriPath uri = some (below (resolve [] names)) ∧
        mgNormalizeUriPath (below (resolve [] names)) = some (below (resolve [] names)) := by
  cases uri with
  | nil => exact .inl ⟨nofun, rfl⟩
  | cons c s =>
    by_cases absolute : c = slash
    · obtain ⟨name, names, solid, same⟩ := exists_below s
      rw [absolute, same]
      have ne : name :: names ≠ [] := List.cons_ne_nil _ _
      have solid' : ∀ c ∈ resolve [] (name :: names), slash ∉ c :=
        resolve_forall List.not_mem_nil (fun name mem _ _ => solid name mem) (List.forall_mem_nil _)
      have resolved := resolved_resolve (name :: names)
      have again := normalizeUriPath_resolve (resolve_ne ne []) solid'
      rw [resolve_resolved resolved, List.nil_append] at again
      exact .inr ⟨_, solid, rfl, resolved, normalizeUriPath_resolve ne solid, again⟩
    · have other : (c :: s).head? ≠ some slash := fun same => absolute (Option.some.inj same)
      exact .inl ⟨other, if_pos other⟩

/-! ### Percent encoding -/

theorem hexValue_hextoi : ∀ c : UInt8,
    hexValue c = if isxdigit c then some (hextoi c) else none :=
  Bytes.forall_uint8 (by decide +kernel)

theorem hextoi_lt : ∀ c : UInt8, isxdigit c = true → (hextoi c).toNat < 16 :=
  Bytes.forall_uint8 (by decide +kernel)

theorem join_hex {x y : UInt8} (high : x.toNat < 16) (low : y.toNat < 16) :
    x <<< 4 ||| y = 16 * x + y := by
  have all : ∀ i < 16, ∀ j < 16, UInt8.ofNat i <<< 4 ||| UInt8.ofNat j =
      16 * UInt8.ofNat i + UInt8.ofNat j := by decide +kernel
  have here := all x.toNat high y.toNat low
  rwa [UInt8.ofNat_toNat, UInt8.ofNat_toNat] at here

/-- With room, `mg_url_decode` decodes. -/
theorem urlDecode_eq {src : List UInt8} {room : Nat} (fits : src.length ≤ room) :
    mgUrlDecode src room = decode src := by
  fun_induction mgUrlDecode src room with
  | case1 => rfl
  | case2 => cases fits
  | case3 room a b src digits ih =>
    have first := hexValue_hextoi a
    have second := hexValue_hextoi b
    rw [if_pos digits.1] at first
    rw [if_pos digits.2] at second
    rw [decode_escape first second, ih (by simp only [List.length_cons] at fits; omega),
      join_hex (hextoi_lt a digits.1) (hextoi_lt b digits.2)]
  | case4 room a b src digits =>
    refine (decode_malformed ?_ src).symm
    rw [hexValue_hextoi, hexValue_hextoi]
    rcases not_and_or.mp digits with first | second
    · exact .inl (if_neg first)
    · exact .inr (if_neg second)
  | case5 src room short => exact (decode_cut short).symm
  | case6 c src room plain ih =>
    rw [decode_cons plain, ih (Nat.le_of_succ_le_succ fits)]

/-! ### The way to a file -/

variable {enc u : List UInt8} {encs more : List (List UInt8)} {before : UInt8}

/-- What `mg_uri_to_local_path` has not read of the names of a URI, with the byte in front of it. -/
def Unread (before : UInt8) (u : List UInt8) : List (List UInt8) → Prop
  | [] => before ≠ slash ∧ u = []
  | name :: names => before :: u = below (name :: names)

theorem Unread.remainder (unread : Unread before u more) :
    (if before = 47 then 47 :: u else u) = below more := by
  cases more with
  | nil =>
    have other : before ≠ 47 := unread.1
    rw [if_neg other, unread.2]
    rfl
  | cons name more =>
    have same : before :: u = below (name :: more) := unread
    have first : before = 47 := (List.cons.inj (same.trans (below_cons name more))).1
    rw [if_pos first, ← same, first]

theorem Unread.text (unread : Unread before u (enc :: more)) : u = enc ++ below more :=
  (List.cons.inj (Eq.trans unread (below_cons enc more))).2

/-- One component is read. -/
theorem Unread.read (unread : Unread before u (enc :: more)) (solid : slash ∉ enc) (ne : enc ≠ []) :
    ∃ next, parseUriComponent u = (enc, next) ∧
      Unread ((u.take (u.length - next.length)).getLast?.getD before) next more ∧
      (next = [] ∨ enc.length + next.length + 1 = u.length) := by
  rw [unread.text]
  cases more with
  | nil =>
    refine ⟨[], ?_, ⟨?_, rfl⟩, .inl rfl⟩
    · rw [below_nil, List.append_nil, parseUriComponent_last solid]
    · rw [below_nil, List.append_nil, List.length_nil, Nat.sub_zero,
        List.take_length, List.getLast?_eq_some_getLast ne, Option.getD_some]
      intro same
      exact solid (same ▸ List.getLast_mem ne)
  | cons name more =>
    have text : below (name :: more) = slash :: (below (name :: more)).tail :=
      below_tail (List.cons_ne_nil _ _)
    rw [text]
    refine ⟨_, parseUriComponent_slash solid, ?_, .inr ?_⟩
    · rw [take_component, List.getLast?_concat, Option.getD_some]
      exact text.symm
    · rw [List.length_append, List.length_cons]
      omega

theorem encoded_ne (decoded : decode enc = some name) (isName : IsName name) : enc ≠ [] := by
  rintro rfl
  exact isName.ne (Option.some.inj decoded).symm

/-- A component that is a name in percent encoding is added to the path. -/
theorem addComponent_name {lp : List UInt8} {root size : Nat} (decoded : decode enc = some name)
    (isName : IsName name) (fits : lp.length + enc.length + 2 ≤ size) :
    addComponent root size lp enc = some (some (lp ++ slash :: name)) := by
  have ne := encoded_ne decoded isName
  rw [addComponent, if_neg ne, if_neg (by omega), urlDecode_eq (by omega), decoded]
  have plain : (name.contains 0 || name.contains 47) = false := by
    have nul := isName.no_nul
    have slashes := isName.no_slash
    rw [Bool.or_eq_false_iff, ← Bool.not_eq_true, ← Bool.not_eq_true, List.contains_iff_mem,
      List.contains_iff_mem]
    exact ⟨nul, slashes⟩
  cases name with
  | nil => exact absurd rfl isName.ne
  | cons c name =>
    have not_dot : c :: name ≠ [46] := isName.not_dot
    have not_dotDot : c :: name ≠ [46, 46] := isName.not_dotDot
    dsimp only
    rw [if_neg not_dot, if_neg not_dotDot, plain]
    rfl

/-- The loop of `mg_uri_to_local_path` goes through the directories to the file, and stops there. -/
theorem localComponents_file {files : Files} {root size fuel : Nat} {lp : List UInt8}
    (decoded : List.Forall₂ (fun enc name => decode enc = some name) encs names)
    (isNames : ∀ name ∈ names, IsName name) (solid : ∀ enc ∈ encs, slash ∉ enc)
    (directories : ∀ front, front <+: names → front.length < names.length →
      files.stat (lp ++ below front) = some .directory)
    (regular : files.stat (lp ++ below names) = some .regular)
    (unread : Unread before u (encs ++ more)) (enough : u.length < fuel)
    (fits : u ≠ [] → lp.length + u.length + 2 ≤ size) :
    localComponents files root size fuel before u lp true =
      some (.found (lp ++ below names) (below more)) := by
  induction decoded generalizing before u lp fuel with
  | nil =>
    obtain ⟨fuel, rfl⟩ := Nat.exists_eq_add_of_le' (Nat.le_trans (Nat.le_add_left 1 _) enough)
    have here : files.stat lp = some .regular := by
      rwa [below_nil, List.append_nil] at regular
    rw [localComponents]
    simp only [here, Option.isSome_some, Bool.and_self, and_self, if_true, unread.remainder]
    rw [below_nil, List.append_nil, List.nil_append]
  | @cons enc name encs names first decoded ih =>
    obtain ⟨fuel, rfl⟩ := Nat.exists_eq_add_of_le' (Nat.le_trans (Nat.le_add_left 1 _) enough)
    obtain ⟨isName, isNames⟩ := List.forall_mem_cons.mp isNames
    obtain ⟨here, solid⟩ := List.forall_mem_cons.mp solid
    have ne := encoded_ne first isName
    have text := unread.text
    have more_text : u ≠ [] := text ▸ List.append_ne_nil_of_left_ne_nil ne _
    have room := fits more_text
    have shorter : enc.length ≤ u.length := by
      rw [text, List.length_append]
      omega
    have directory : files.stat lp = some .directory := by
      have := directories [] List.nil_prefix (Nat.succ_pos _)
      rwa [below_nil, List.append_nil] at this
    obtain ⟨next, parsed, unread', lengths⟩ := unread.read here ne
    have name_length : name.length ≤ enc.length :=
      urlDecode_length ((urlDecode_eq (Nat.le_refl _)).trans first)
    have path (front : List (List UInt8)) :
        lp ++ slash :: name ++ below front = lp ++ below (name :: front) := by
      rw [below_cons, List.append_assoc, List.cons_append]
    -- The path is a directory, so that the loop reads the next component.
    rw [localComponents]
    simp only [directory, Option.isSome_some, Bool.and_self, true_and, Option.some.injEq,
      reduceCtorEq, if_false, if_neg more_text, parsed]
    rw [addComponent_name first isName (by omega), ← path]
    refine ih isNames solid ?_ ?_ unread' ?_ fun next_ne => ?_
    · intro front isPrefix short
      rw [path]
      exact directories _ (List.cons_prefix_cons.mpr ⟨rfl, isPrefix⟩) (Nat.succ_lt_succ short)
    · rwa [path]
    · have positive := List.length_pos_iff.mpr ne
      rcases lengths with rfl | whole
      · simp only [List.length_nil]
        omega
      · omega
    · rcases lengths with rfl | whole
      · exact absurd rfl next_ne
      · rw [List.length_append, List.length_cons]
        omega

/-! ### Extensions -/

variable {sub : List UInt8 → List UInt8 → Nat} {extension str : List UInt8} {j : Nat}

/-- A text without special characters, and the end; the dollar sign stands for itself too. -/
theorem matchFrom_ending (plain : plainPattern extension = true)
    (positive : 0 < j + extension.length) :
    0 < matchFrom sub (extension ++ [36]) str j ↔
      str.map tolower = extension.map tolower ∨
        extension.map tolower ++ [36] <+: str.map tolower := by
  induction extension generalizing str j with
  | nil =>
    rw [List.length_nil, Nat.add_zero] at positive
    cases str with
    | nil => simp [matchFrom, positive]
    | cons c cs =>
      have dollar : tolower 36 = tolower c ↔ (36 : UInt8) = tolower c := by
        rw [show tolower 36 = 36 from rfl]
      by_cases same : tolower 36 = tolower c
      · simp [matchFrom, same, ← dollar]
      · simp [matchFrom, same, ← dollar]
  | cons p ps ih =>
    obtain ⟨special, rest⟩ := plainPattern_cons plain
    cases str with
    | nil => simp [matchFrom, special.1]
    | cons c cs =>
      rw [List.cons_append, matchFrom_char plain]
      by_cases same : tolower p = tolower c
      · rw [if_pos same, ih rest (by omega)]
        simp [same]
      · rw [if_neg same]
        simp [same, Ne.symm same]

theorem matchLengths_pos {rest : Nat → Nat} {len : Nat} :
    0 < matchLengths rest len ↔ ∃ k ≤ len, 0 < rest k := by
  induction len with
  | zero => simp [matchLengths]
  | succ len ih =>
    rw [matchLengths]
    split
    · rename_i none
      rw [ih]
      constructor
      · rintro ⟨k, le, pos⟩
        exact ⟨k, Nat.le_succ_of_le le, pos⟩
      · rintro ⟨k, le, pos⟩
        rcases Nat.le_succ_iff.mp le with le | rfl
        · exact ⟨k, le, pos⟩
        · exact absurd none (Nat.ne_of_gt pos)
    · rename_i found
      exact iff_of_true (by omega) ⟨len + 1, Nat.le_refl _, by omega⟩

/-- `**`, a text and the end of the path. -/
def globPattern (extension : List UInt8) : List UInt8 := 42 :: 42 :: (extension ++ [36])

/-- A path that ends with the extension, in any case, or has it before a dollar sign. -/
def HasExtension (extension path : List UInt8) : Prop :=
  extension.map tolower <:+ path.map tolower ∨
    extension.map tolower ++ [36] <:+: path.map tolower

instance (extension path : List UInt8) : Decidable (HasExtension extension path) :=
  inferInstanceAs (Decidable (_ ∨ _))

theorem globPattern_absent {separator : UInt8} (plain : plainPattern extension = true)
    (special : separator ∈ [44, 124]) : separator ∉ globPattern extension := by
  have absent := plainPattern_absent plain special
  have others : separator ≠ 42 ∧ separator ≠ 36 := by
    rcases List.mem_pair.mp special with rfl | rfl <;> decide
  simp [globPattern, absent, others]

theorem globPattern_split {separator : UInt8} (plain : plainPattern extension = true)
    (special : separator ∈ [44, 124]) :
    splitPattern separator (globPattern extension) = none ∧
      splitPattern separator (extension ++ [36]) = none := by
  have absent := globPattern_absent plain special
  have absent' : separator ∉ extension ++ [36] := fun inside =>
    absent (List.mem_cons_of_mem _ (List.mem_cons_of_mem _ inside))
  exact ⟨splitPattern_absent absent, splitPattern_absent absent'⟩

theorem hasExtension_drop {path : List UInt8} : HasExtension extension path ↔
    ∃ k ≤ path.length, (path.drop k).map tolower = extension.map tolower ∨
      extension.map tolower ++ [36] <+: (path.drop k).map tolower := by
  have length : (path.map tolower).length = path.length := List.length_map tolower
  simp only [List.map_drop]
  rw [HasExtension, ← length]
  generalize path.map tolower = lowered
  constructor
  · rintro (⟨front, same⟩ | ⟨front, back, same⟩)
    · refine ⟨front.length, ?_, .inl ?_⟩
      · rw [← same, List.length_append]
        omega
      · rw [← same, List.drop_left]
    · refine ⟨front.length, ?_, .inr ⟨back, ?_⟩⟩
      · rw [← same, List.append_assoc, List.length_append]
        omega
      · rw [← same, List.append_assoc front, List.drop_left]
  · rintro ⟨k, -, same | isPrefix⟩
    · exact .inl (same ▸ List.drop_suffix _ _)
    · exact .inr (isPrefix.isInfix.trans (List.drop_suffix _ _).isInfix)

theorem matchPrefixN_glob (fuel : Nat) (plain : plainPattern extension = true)
    (ne : extension ≠ []) :
    0 < mgMatchPrefixN (fuel + 2) (globPattern extension) str ↔ HasExtension extension str := by
  have whole : ∀ s, 0 < mgMatchPrefixN (fuel + 1) (extension ++ [36]) s ↔
      s.map tolower = extension.map tolower ∨ extension.map tolower ++ [36] <+: s.map tolower := by
    intro s
    rw [mgMatchPrefixN, (globPattern_split plain (by decide)).2,
      (globPattern_split plain (by decide)).2]
    exact matchFrom_ending plain (by have := List.length_pos_iff.mpr ne; omega)
  rw [mgMatchPrefixN, (globPattern_split plain (by decide)).1,
    (globPattern_split plain (by decide)).1]
  dsimp only [Option.orElse]
  have behind : extension ++ [36] ≠ [] ∧ extension ++ [36] ≠ [36] := by simp [ne]
  rw [hasExtension_drop]
  cases str with
  | nil => simp [globPattern, matchFrom, ne]
  | cons c cs =>
    rw [globPattern, matchFrom]
    simp only [List.head?_cons, List.tail_cons, if_true, behind, or_self, if_false]
    rw [if_neg (by decide)]
    have positive : ∀ n : Nat, (0 < if n = 0 then 0 else 0 + n) ↔ 0 < n := by
      intro n
      split <;> omega
    rw [positive, matchLengths_pos]
    exact exists_congr fun k => and_congr_right fun _ => whole _

/-- Two extensions, with a bar between them. -/
theorem matchPrefix_extensions {first second : List UInt8} (plain : plainPattern first = true)
    (ne : first ≠ []) (plain' : plainPattern second = true) (ne' : second ≠ []) :
    0 < mgMatchPrefix (globPattern first ++ 124 :: globPattern second) str ↔
      HasExtension first str ∨ HasExtension second str := by
  have absent : ∀ c ∈ globPattern first, decide (c ≠ 124) = true := by
    intro c mem
    refine decide_eq_true ?_
    rintro rfl
    exact globPattern_absent plain (by decide) mem
  have bar : splitPattern 124 (globPattern first ++ 124 :: globPattern second) =
      some (globPattern first, globPattern second) := by
    rw [splitPattern, if_pos (by simp), CText.takeWhile_stop absent (by decide),
      List.dropWhile_append_of_pos absent]
    rfl
  have fuel : ∃ n, (globPattern first ++ 124 :: globPattern second).length + 1 = n + 2 + 1 := by
    refine ⟨first.length + second.length + 5, ?_⟩
    simp only [globPattern, List.length_append, List.length_cons, List.length_nil]
    omega
  obtain ⟨n, fuel⟩ := fuel
  rw [mgMatchPrefix, fuel, mgMatchPrefixN, bar, ← matchPrefixN_glob n plain ne,
    ← matchPrefixN_glob n plain' ne']
  dsimp only [Option.orElse]
  split <;> omega

/-- The files that are run. -/
def IsScript (path : List UInt8) : Prop :=
  HasExtension (CText.utf8 ".cgi") path ∨ HasExtension (CText.utf8 ".php") path

/-- The files with server-side includes. -/
def IsInclude (path : List UInt8) : Prop :=
  HasExtension (CText.utf8 ".shtml") path ∨ HasExtension (CText.utf8 ".shtm") path

instance (path : List UInt8) : Decidable (IsScript path) := inferInstanceAs (Decidable (_ ∨ _))

instance (path : List UInt8) : Decidable (IsInclude path) := inferInstanceAs (Decidable (_ ∨ _))

theorem matchPrefix_script {path : List UInt8} :
    0 < mgMatchPrefix cgiFilePattern path ↔ IsScript path := by
  have pattern : cgiFilePattern =
      globPattern (CText.utf8 ".cgi") ++ 124 :: globPattern (CText.utf8 ".php") := by decide
  rw [pattern, IsScript]
  exact matchPrefix_extensions (by decide) (by decide) (by decide) (by decide)

theorem matchPrefix_include {path : List UInt8} :
    0 < mgMatchPrefix ssiPattern path ↔ IsInclude path := by
  have pattern : ssiPattern =
      globPattern (CText.utf8 ".shtml") ++ 124 :: globPattern (CText.utf8 ".shtm") := by decide
  rw [pattern, IsInclude]
  exact matchPrefix_extensions (by decide) (by decide) (by decide) (by decide)

/-! ### Files -/

/-- What a request for a file gets, with the rest of the URI behind the file. -/
def fileAnswer (files : Files) (hm : HttpHead) (path pathInfo : List UInt8) : Served :=
  if IsScript path then .cgi path pathInfo
  else if pathInfo ≠ [] then .error 501
  else if HiddenName (lastName path) ∧ mgIsCreationRequest hm.method.bytes = false then .error 404
  else if hm.method.bytes = methodOptions then .options
  else if mgIsNotModified files hm path then .notModified
  else if IsInclude path then .ssi path
  else .file path

theorem sendHttpFile_regular {files : Files} {hm : HttpHead} {uri path pathInfo : List UInt8}
    (regular : files.stat path = some .regular) :
    mgSendHttpFile files hm uri path pathInfo = fileAnswer files hm path pathInfo := by
  have no_directory : (some FileKind.regular == some FileKind.directory) = false := rfl
  have hidden : mgIsFileHidden path = decide (HiddenName (lastName path)) := by
    rw [Bool.eq_iff_iff, isFileHidden_iff, decide_eq_true_iff]
  rw [mgSendHttpFile, fileAnswer]
  simp only [no_directory, Bool.false_eq_true, false_and, if_false, Option.getD_none, hidden,
    regular, Option.isSome_some, Bool.not_true, Bool.false_or, gt_iff_lt, matchPrefix_script,
    decide_eq_true_eq, mgHttpServeFile2, matchPrefix_include]
  by_cases script : IsScript path
  · simp only [script, decide_true, Bool.not_true, Bool.false_eq_true, and_false, if_false, if_true]
  · simp only [script, decide_false, Bool.not_false, and_true, if_false, Bool.not_eq_true']

variable {files : Files} {resourcesPath : List UInt8} {comps : List (List UInt8)}

/-- `mg_uri_to_local_path` finds the file, and what is behind its name. -/
theorem uriToLocalPath_file (ne : encs ++ more ≠ []) (solid : ∀ enc ∈ encs, slash ∉ enc)
    (decoded : List.Forall₂ (fun enc name => decode enc = some name) encs names)
    (isNames : ∀ name ∈ names, IsName name)
    (directories : ∀ front, front <+: names → front.length < names.length →
      files.stat (serverWebRoot resourcesPath ++ below front) = some .directory)
    (regular : files.stat (serverWebRoot resourcesPath ++ below names) = some .regular) :
    mgUriToLocalPath files (serverWebRoot resourcesPath) (below (encs ++ more)) =
      some (.found (serverWebRoot resourcesPath ++ below names) (below more)) := by
  cases whole : encs ++ more with
  | nil => exact absurd whole ne
  | cons c rest =>
    have unread : Unread slash (below (c :: rest)).tail (encs ++ more) := by
      rw [whole]
      rfl
    rw [mgUriToLocalPath, if_neg (serverWebRoot_ne resourcesPath), below_cons,
      localRoot_serverWebRoot]
    dsimp only
    refine localComponents_file decoded isNames solid directories regular unread ?_ fun _ => ?_
    · rw [List.length_cons]
      omega
    · rw [List.length_cons]
      omega

/-- A URI that resolves to the names of a file in percent encoding, with or without more behind
them, gets the answer for that file. -/
theorem served_file (files : Files) (resourcesPath : List UInt8) (hm : HttpHead)
    (uri : hm.uri.bytes = below comps) (ne : comps ≠ []) (solid : ∀ c ∈ comps, slash ∉ c)
    (resolved : resolve [] comps = encs ++ more)
    (decoded : List.Forall₂ (fun enc name => decode enc = some name) encs names)
    (isNames : ∀ name ∈ names, IsName name)
    (directories : ∀ front, front <+: names → front.length < names.length →
      files.stat (serverWebRoot resourcesPath ++ below front) = some .directory)
    (regular : files.stat (serverWebRoot resourcesPath ++ below names) = some .regular) :
    mgServeHttp files (serverWebRoot resourcesPath) hm =
      some (fileAnswer files hm (serverWebRoot resourcesPath ++ below names) (below more)) := by
  have solid' : ∀ enc ∈ encs, slash ∉ enc := fun enc mem =>
    resolve_forall List.not_mem_nil (fun c mem _ _ => solid c mem) (List.forall_mem_nil _) enc
      (resolved ▸ List.mem_append_left more mem)
  have found := uriToLocalPath_file (resolved ▸ resolve_ne ne []) solid' decoded isNames
    directories regular
  rw [mgServeHttp, uri, normalizeUriPath_resolve ne solid, resolved]
  dsimp only
  rw [found, Option.map_some]
  dsimp only
  rw [sendHttpFile_regular regular]

/-- `d/a b` -/
def oneFileNames : List (List UInt8) := [[100], [97, 32, 98]]

/-- A web root with one file, in a directory. -/
def oneFile : Files where
  stat path :=
    if path = serverWebRoot [114] then some .directory
    else if path = serverWebRoot [114] ++ below [[100]] then some .directory
    else if path = serverWebRoot [114] ++ below oneFileNames then some .regular
    else none
  etagIs _ _ := false
  unmodifiedSince _ _ := false

/-- A request with a method and a URI. -/
def headFor (method uri : List UInt8) : HttpHead where
  method := ⟨method, method.length⟩
  uri := ⟨uri, uri.length⟩
  queryString := none
  proto := ⟨[], 0⟩
  headers := []
  sizes := ⟨0, 0, 0⟩

theorem oneFileNames_isName : ∀ name ∈ oneFileNames, IsName name := by
  decide

theorem oneFile_directories :
    ∀ front, front <+: oneFileNames → front.length < oneFileNames.length →
      oneFile.stat (serverWebRoot [114] ++ below front) = some .directory := by
  intro front isPrefix short
  have one_or_none : front.length = 0 ∨ front.length = 1 := by
    rw [show oneFileNames.length = 2 from rfl] at short
    omega
  rw [List.prefix_iff_eq_take] at isPrefix
  rcases one_or_none with length | length <;> rw [isPrefix, length] <;> decide

/-- `/x/../%64/a%20b/i`: the file, with escapes in its names, dot segments in front of them, and a
path behind them. -/
def escapedComponents : List (List UInt8) :=
  [[120], [46, 46], [37, 54, 52], [97, 37, 50, 48, 98], [105]]

theorem served_file_escaped :
    mgServeHttp oneFile (serverWebRoot [114]) (headFor [71, 69, 84] (below escapedComponents)) =
      some (fileAnswer oneFile (headFor [71, 69, 84] (below escapedComponents))
        (serverWebRoot [114] ++ below oneFileNames) (below [[105]])) := by
  have solid : ∀ c ∈ escapedComponents, slash ∉ c := by decide
  have resolved : resolve [] escapedComponents =
      [[37, 54, 52], [97, 37, 50, 48, 98]] ++ [[105]] := by decide
  have decoded : List.Forall₂ (fun enc name => decode enc = some name)
      [[37, 54, 52], [97, 37, 50, 48, 98]] oneFileNames :=
    .cons (by decide) (.cons (by decide) .nil)
  exact served_file oneFile [114] (headFor [71, 69, 84] (below escapedComponents)) (by decide)
    (List.cons_ne_nil _ _) solid resolved decoded oneFileNames_isName oneFile_directories
    (by decide)

theorem resolved_encode (isNames : ∀ name ∈ names, IsName name) : Resolved (names.map encode) := by
  intro enc mem
  obtain ⟨name, member, rfl⟩ := List.mem_map.mp mem
  have isName := isNames name member
  have round := decode_encode name
  constructor
  · intro same
    rw [same] at round
    exact isName.not_dot (Option.some.inj round).symm
  · intro same
    rw [same] at round
    exact isName.not_dotDot (Option.some.inj round).symm

/-- Every file below the web root is asked for by its names in percent encoding. -/
theorem served_encoded (files : Files) (resourcesPath : List UInt8) (hm : HttpHead)
    (ne : names ≠ []) (isNames : ∀ name ∈ names, IsName name)
    (uri : hm.uri.bytes = below (names.map encode))
    (directories : ∀ front, front <+: names → front.length < names.length →
      files.stat (serverWebRoot resourcesPath ++ below front) = some .directory)
    (regular : files.stat (serverWebRoot resourcesPath ++ below names) = some .regular) :
    mgServeHttp files (serverWebRoot resourcesPath) hm =
      some (fileAnswer files hm (serverWebRoot resourcesPath ++ below names) []) := by
  have ne' : names.map encode ≠ [] := fun none => ne (List.map_eq_nil_iff.mp none)
  have solid : ∀ enc ∈ names.map encode, slash ∉ enc := by
    intro enc mem
    obtain ⟨name, -, rfl⟩ := List.mem_map.mp mem
    exact encode_component name
  have decoded : List.Forall₂ (fun enc name => decode enc = some name) (names.map encode) names :=
    List.forall₂_map_left_iff.mpr (List.forall₂_same.mpr fun name _ => decode_encode name)
  have whole : names.map encode ++ [] ≠ [] := by rwa [List.append_nil]
  have found := uriToLocalPath_file whole solid decoded isNames directories regular
  rw [List.append_nil] at found
  rw [mgServeHttp, uri, normalizeUriPath_resolve ne' solid,
    resolve_resolved (resolved_encode isNames), List.nil_append]
  dsimp only
  rw [found, Option.map_some]
  dsimp only
  rw [sendHttpFile_regular regular]
  rfl

theorem served_encoded_oneFile :
    mgServeHttp oneFile (serverWebRoot [114])
        (headFor [71, 69, 84] (below (oneFileNames.map encode))) =
      some (fileAnswer oneFile (headFor [71, 69, 84] (below (oneFileNames.map encode)))
        (serverWebRoot [114] ++ below oneFileNames) []) :=
  served_encoded oneFile [114] (headFor [71, 69, 84] (below (oneFileNames.map encode)))
    (List.cons_ne_nil _ _) oneFileNames_isName (by decide) oneFile_directories (by decide)

end Guardwatch.Mongoose
