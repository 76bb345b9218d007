import Guardwatch.Gfc.Fs
import Mathlib.Data.List.Induction
import Mathlib.Data.List.Infix

/-! The directories that `gfc_fs_mkdirs` makes: those along its path, and no others. -/

namespace Guardwatch

open Bytes FileTree

variable {fs : GfcFs} {t t' t'' : FileTree} {buffer text dir : List UInt8} {save n turns : Nat}
  {base : Location} {names rest : List EntryName}

/-! ### Tokens -/

/-- A text is made of slashes, or has a name behind some slashes. -/
theorem split_text (text : List UInt8) :
    (∃ k, text = List.replicate k slash) ∨
      ∃ k name rest, text = List.replicate k slash ++ (name ++ rest) ∧ name ≠ [] ∧ slash ∉ name ∧
        (rest = [] ∨ ∃ more, rest = slash :: more) := by
  induction text with
  | nil => exact .inl ⟨0, rfl⟩
  | cons c text ih =>
    by_cases at_slash : c = slash
    · subst at_slash
      rcases ih with ⟨k, rfl⟩ | ⟨k, name, rest, rfl, proper⟩
      · exact .inl ⟨k + 1, rfl⟩
      · exact .inr ⟨k + 1, name, rest, rfl, proper⟩
    · right
      rcases ih with ⟨k, rfl⟩ | ⟨k, name, rest, rfl, proper, slashFree, ends⟩
      · refine ⟨0, [c], List.replicate k slash, rfl, List.cons_ne_nil _ _, by simpa [eq_comm], ?_⟩
        cases k with
        | zero => exact .inl rfl
        | succ k => exact .inr ⟨_, rfl⟩
      · cases k with
        | zero =>
          refine ⟨0, c :: name, rest, rfl, List.cons_ne_nil _ _, ?_, ends⟩
          rw [List.mem_cons, not_or]
          exact ⟨Ne.symm at_slash, slashFree⟩
        | succ k =>
          exact ⟨0, [c], _, rfl, List.cons_ne_nil _ _, by simpa [eq_comm], .inr ⟨_, rfl⟩⟩

theorem components_slashes (k : Nat) (text : List UInt8) :
    components (List.replicate k slash ++ text) = components text := by
  induction k with
  | zero => rfl
  | succ k ih =>
    rw [List.replicate_succ, List.cons_append, components, componentsFrom, if_pos rfl, if_pos rfl]
    exact ih

/-- The text is what is left in the buffer, with NULs behind it. -/
def Ahead (buffer : List UInt8) (save : Nat) (text : List UInt8) : Prop :=
  0 ∉ text ∧ ∃ n, buffer.drop save = text ++ List.replicate (n + 1) 0

theorem strtok_slashes {k : Nat} (ahead : Ahead buffer save (List.replicate k slash)) :
    strtok buffer save = none := by
  obtain ⟨-, n, ahead⟩ := ahead
  have slashes : (buffer.drop save).takeWhile (· = slash) = List.replicate k slash := by
    rw [ahead, List.replicate_succ]
    exact CText.takeWhile_stop (by simp) (by decide)
  have token : buffer.drop (save + k) = List.replicate (n + 1) 0 := by
    rw [← List.drop_drop, ahead, List.drop_left' (List.length_replicate)]
  rw [strtok, slashes, List.length_replicate, token]
  simp [List.replicate_succ]

theorem strtok_eq {k : Nat} {name back : List UInt8} {c : UInt8}
    (at_save : buffer.drop save = List.replicate k slash ++ (name ++ c :: back))
    (nonempty : name ≠ []) (proper : ∀ d ∈ name, d ≠ slash ∧ d ≠ 0) (stops : c = slash ∨ c = 0) :
    strtok buffer save =
      if c = slash then
        some (save + k, buffer.set (save + k + name.length) 0, save + k + name.length + 1)
      else some (save + k, buffer, save + k + name.length) := by
  have at_name : buffer.drop (save + k) = name ++ c :: back := by
    rw [← List.drop_drop, at_save, List.drop_left' List.length_replicate]
  have slashes : (buffer.drop save).takeWhile (· = slash) = List.replicate k slash := by
    obtain ⟨first, name, rfl⟩ := List.exists_cons_of_ne_nil nonempty
    rw [at_save, List.cons_append]
    exact CText.takeWhile_stop (by simp) (by simpa using (proper first List.mem_cons_self).1)
  have token : (buffer.drop (save + k)).takeWhile (fun c => c ≠ slash ∧ c ≠ 0) = name := by
    rw [at_name]
    refine CText.takeWhile_stop (fun d member => decide_eq_true (proper d member)) ?_
    rcases stops with rfl | rfl <;> decide
  have stop : buffer[save + k + name.length]? = some c := by
    rw [← List.getElem?_drop, at_name, List.getElem?_append_right (Nat.le_refl _), Nat.sub_self]
    rfl
  have longer := List.length_pos_iff.mpr nonempty
  rw [strtok, slashes, List.length_replicate, token, if_neg (by omega), stop]
  simp only [Option.some.injEq]

/-- A token is the next component, and leaves those behind it. -/
theorem strtok_name {k : Nat} {name : List UInt8}
    (ahead : Ahead buffer save (List.replicate k slash ++ (name ++ text)))
    (nonempty : name ≠ []) (slashFree : slash ∉ name)
    (ends : text = [] ∨ ∃ more, text = slash :: more) :
    ∃ token buffer' save' text', strtok buffer save = some (token, buffer', save') ∧
      CInput.cString (buffer'.drop token) = name ∧ Ahead buffer' save' text' ∧
      components text' = components text ∧ buffer'.head? = buffer.head? := by
  obtain ⟨nulFree, n, ahead⟩ := ahead
  simp only [List.mem_append, not_or] at nulFree
  have proper : ∀ d ∈ name, d ≠ slash ∧ d ≠ 0 := by
    intro d member
    constructor
    · rintro rfl
      exact slashFree member
    · rintro rfl
      exact nulFree.2.1 member
  have string : ∀ back, (name ++ 0 :: back).takeWhile (· ≠ 0) = name := fun back =>
    CText.takeWhile_stop (fun d member => decide_eq_true (proper d member).2) (by decide)
  have longer := List.length_pos_iff.mpr nonempty
  rw [List.append_assoc, List.append_assoc] at ahead
  rcases ends with rfl | ⟨more, rfl⟩
  · rw [List.nil_append, List.replicate_succ] at ahead
    refine ⟨_, _, _, [], strtok_eq ahead nonempty proper (.inr rfl), ?_, ⟨nofun, n, ?_⟩, rfl, rfl⟩
    · rw [CInput.cString, ← List.drop_drop, ahead, List.drop_left' List.length_replicate, string]
    · rw [Nat.add_assoc, ← List.drop_drop, ahead, ← List.append_assoc, List.drop_left' (by simp)]
      rfl
  · rw [List.cons_append] at ahead
    refine ⟨_, _, _, more, strtok_eq ahead nonempty proper (.inl rfl), ?_, ⟨?_, n, ?_⟩, ?_, ?_⟩
    · have cut : (buffer.set (save + k + name.length) 0).drop (save + k) =
          name ++ 0 :: (more ++ List.replicate (n + 1) 0) := by
        rw [List.drop_set, if_neg (by omega), ← List.drop_drop, ahead,
          List.drop_left' List.length_replicate, List.set_append_right _ _ (by omega)]
        simp
      rw [CInput.cString, cut, string]
    · exact fun member => nulFree.2.2 (List.mem_cons_of_mem _ member)
    · rw [List.drop_set, if_pos (Nat.lt_succ_self _), Nat.add_assoc, Nat.add_assoc,
        ← List.drop_drop, ahead, ← List.append_assoc, ← List.singleton_append, ← List.append_assoc,
        List.drop_left' (by simp)]
    · exact (components_slashes 1 more).symm
    · obtain ⟨stop, same⟩ : ∃ stop, save + k + name.length = stop + 1 :=
        Nat.exists_eq_add_one_of_ne_zero (by omega)
      rw [same]
      cases buffer <;> rfl

theorem components_name {name : List UInt8} (nonempty : name ≠ []) (slashFree : slash ∉ name)
    (ends : text = [] ∨ ∃ more, text = slash :: more) :
    components (name ++ text) = name :: components text := by
  have alone : componentsFrom [] name = [name] := componentsFrom_name nonempty slashFree
  rcases ends with rfl | ⟨more, rfl⟩
  · rw [List.append_nil, components, alone]
    rfl
  · rw [components, componentsFrom_slash, alone, List.singleton_append]
    exact congrArg (name :: ·) (components_slashes 1 more).symm

theorem strtok_end (ahead : Ahead buffer save text) (empty : components text = []) :
    strtok buffer save = none := by
  rcases split_text text with ⟨k, rfl⟩ | ⟨k, name, rest, rfl, nonempty, slashFree, ends⟩
  · exact strtok_slashes ahead
  · rw [components_slashes, components_name nonempty slashFree ends] at empty
    cases empty

theorem strtok_next {name : EntryName} (ahead : Ahead buffer save text)
    (split : components text = name.bytes :: rest.map EntryName.bytes) :
    ∃ token buffer' save' text', strtok buffer save = some (token, buffer', save') ∧
      CInput.cString (buffer'.drop token) = name.bytes ∧ Ahead buffer' save' text' ∧
      components text' = rest.map EntryName.bytes ∧ buffer'.head? = buffer.head? := by
  rcases split_text text with ⟨k, rfl⟩ | ⟨k, bytes, rest', rfl, nonempty, slashFree, ends⟩
  · have empty := components_slashes k []
    rw [List.append_nil, split] at empty
    cases empty
  · rw [components_slashes, components_name nonempty slashFree ends] at split
    obtain ⟨rfl, left⟩ := List.cons.inj split
    rw [← left]
    exact strtok_name ahead nonempty slashFree ends

/-! ### The path that is put together -/

/-- What `dir` holds after the names, behind a slash for an absolute path. -/
def dirText (absolute : Bool) (names : List EntryName) : List UInt8 :=
  (if absolute then [slash] else []) ++ names.flatMap fun name => name.bytes ++ [slash]

variable {absolute : Bool} {done : List EntryName}

theorem dirText_concat (name : EntryName) :
    dirText absolute (done ++ [name]) = dirText absolute done ++ name.bytes ++ [slash] := by
  simp [dirText]

theorem dirText_length (names : List EntryName) :
    (dirText absolute names).length =
      (if absolute then 1 else 0) + (names.map fun name => name.bytes.length + 1).sum := by
  cases absolute <;> simp [dirText, List.length_flatMap, Nat.add_comm]

theorem components_dirText (name : EntryName) :
    components (dirText absolute done ++ name.bytes) =
      done.map EntryName.bytes ++ [name.bytes] := by
  induction done using List.reverseRecOn generalizing name with
  | nil =>
    have alone : components name.bytes = [name.bytes] :=
      componentsFrom_name name.nonempty name.slashFree
    cases absolute with
    | false => exact alone
    | true => exact (components_slashes 1 name.bytes).trans alone
  | append_singleton done last ih =>
    rw [dirText_concat, List.append_assoc, List.singleton_append, components_entry, ih,
      List.map_append, List.map_singleton]

theorem start_dirText (name : EntryName) :
    start fs.cwd (dirText absolute done ++ name.bytes) = if absolute then [] else fs.cwd := by
  have unslashed : ∀ (name : EntryName) (more : List UInt8),
      (name.bytes ++ more).head? ≠ some slash := by
    intro name more at_head
    rw [List.head?_append_of_ne_nil _ name.nonempty] at at_head
    exact name.slashFree (List.mem_of_head? at_head)
  cases absolute with
  | true => rfl
  | false =>
    cases done with
    | nil => exact if_neg (List.append_nil name.bytes ▸ unslashed name [])
    | cons first done =>
      have text : dirText false (first :: done) ++ name.bytes =
          first.bytes ++ (slash :: (dirText false done ++ name.bytes)) := by
        simp [dirText]
      rw [text]
      exact if_neg (unslashed first _)

/-! ### The directories that are made -/

/-- There are directories along the names, and nothing else has changed. -/
structure MadeDirs (t : FileTree) (base : Location) (names : List EntryName) (t' : FileTree) :
    Prop where
  dirs : ∀ p, p <+: names → t'.node (base ++ p) = some .dir
  others : ∀ l, (∀ p, p <+: names → l ≠ base ++ p) → t'.node l = t.node l

theorem place_concat_ne {p : List EntryName} (under : p <+: done) (base : Location)
    (name : EntryName) : base ++ (done ++ [name]) ≠ base ++ p := by
  intro equal
  rw [← List.append_cancel_left equal] at under
  exact absurd under.length_le (by simp)

/-- A change that leaves a directory at the next name and nothing else changed. -/
theorem MadeDirs.extend {name : EntryName} (made : MadeDirs t base done t')
    (at_name : t''.node (base ++ (done ++ [name])) = some .dir)
    (others : ∀ l, l ≠ base ++ (done ++ [name]) → t''.node l = t'.node l) :
    MadeDirs t base (done ++ [name]) t'' where
  dirs := by
    intro p under
    rcases List.prefix_concat_iff.mp under with rfl | under
    · exact at_name
    · rw [others _ (place_concat_ne under base name).symm]
      exact made.dirs p under
  others := by
    intro l apart
    rw [others l (apart _ (List.prefix_refl _))]
    exact made.others l fun p under => apart p (under.trans (List.prefix_append _ _))

/-- One more directory is there, or is made. -/
theorem MadeDirs.concat {name : EntryName} (made : MadeDirs t base done t')
    (bare : t.node (base ++ (done ++ [name])) = none ∨
      t.node (base ++ (done ++ [name])) = some .dir)
    (split : components dir = done.map EntryName.bytes ++ [name.bytes])
    (begins : start fs.cwd dir = base) (unslashed : dir.getLast? ≠ some slash) :
    MadeDirs t base (done ++ [name])
      (if fs.access t' dir then t' else t'.mkdir fs.links fs.cwd dir) := by
  have nonempty : dir ≠ [] := by
    rintro rfl
    exact absurd (congrArg List.length split) (by simp [components, componentsFrom])
  have resolved : resolve t' fs.links fs.cwd dir =
      walk t' fs.links (base ++ done) [name.bytes] := by
    rw [resolve, if_neg nonempty, lookups, if_neg unslashed, List.append_nil, split, begins,
      walk_dirs made.dirs]
  have at_done := made.dirs done (List.prefix_refl done)
  rw [← made.others _ fun p under => place_concat_ne under base name] at bare
  rcases bare with missing | at_name
  · rw [← List.append_assoc] at missing
    have denied : fs.access t' dir = false := by
      rw [GfcFs.access, resolved, walk_cons, lookup_missing missing]
      rfl
    have through : walk t' fs.links (start fs.cwd dir) (done.map EntryName.bytes) =
        some (base ++ done) := by
      have walked := @walk_dirs t' base fs.links done made.dirs []
      rw [begins]
      rwa [List.append_nil, walk_nil] at walked
    rw [denied, if_neg Bool.false_ne_true, mkdir_missing split through at_done missing,
      List.append_assoc]
    exact made.extend (node_makeDir.trans (if_pos rfl))
      fun l apart => node_makeDir.trans (if_neg apart)
  · have granted : fs.access t' dir = true := by
      rw [← List.append_assoc] at at_name
      rw [GfcFs.access, resolved, walk_place (lookup_dir at_done at_name)]
      rfl
    rw [if_pos granted]
    exact made.extend at_name fun _ _ => rfl

theorem mkdirsLoop_made (ahead : Ahead buffer save text)
    (split : components text = rest.map EntryName.bytes) (enough : rest.length < turns)
    (begins : base = if absolute then [] else fs.cwd)
    (room : (dirText absolute (done ++ rest)).length < 4096)
    (bare : ∀ p, p <+: done ++ rest → t.node (base ++ p) = none ∨ t.node (base ++ p) = some .dir)
    (made : MadeDirs t base done t') :
    ∃ t'', mkdirsLoop fs turns (strtok buffer save) (dirText absolute done) t' = some t'' ∧
      MadeDirs t base (done ++ rest) t'' := by
  induction rest generalizing buffer save text done t' turns with
  | nil =>
    rw [List.append_nil]
    obtain ⟨turns, rfl⟩ := Nat.exists_eq_add_one_of_ne_zero (Nat.ne_of_gt enough)
    rw [strtok_end ahead split]
    exact ⟨t', rfl, made⟩
  | cons name rest ih =>
    obtain ⟨turns, rfl⟩ :=
      Nat.exists_eq_add_one_of_ne_zero (Nat.ne_of_gt (Nat.zero_lt_of_lt enough))
    obtain ⟨token, buffer', save', text', next, string, ahead, split, -⟩ := strtok_next ahead split
    have through : done ++ name :: rest = done ++ [name] ++ rest := by
      rw [List.append_assoc, List.singleton_append]
    rw [through] at room bare ⊢
    have longer : (dirText absolute (done ++ [name])).length < 4096 := by
      rw [dirText_length, List.map_append, List.sum_append] at room
      rw [dirText_length]
      omega
    have short := longer
    rw [dirText_concat, List.length_append, List.length_append, List.length_singleton] at short
    have named : strcat 4096 (dirText absolute done) name.bytes =
        some (dirText absolute done ++ name.bytes) := if_pos (by omega)
    have slashed : strcat 4096 (dirText absolute done ++ name.bytes) [slash] =
        some (dirText absolute (done ++ [name])) := by
      rw [dirText_concat]
      exact if_pos (by rw [List.length_append, List.length_singleton]; omega)
    have unslashed : (dirText absolute done ++ name.bytes).getLast? ≠ some slash := by
      rw [List.getLast?_append_of_ne_nil _ name.nonempty]
      exact fun last => name.slashFree (List.mem_of_getLast? last)
    have made' := made.concat (bare _ (List.prefix_append _ _)) (components_dirText name)
      ((start_dirText name).trans begins.symm) unslashed
    rw [next, mkdirsLoop, string, named]
    dsimp only [Option.bind_eq_bind, Option.bind_some]
    rw [slashed, Option.bind_some]
    exact ih ahead split (Nat.lt_of_succ_lt_succ enough) room bare made'

/-- What is put together for a path is longer than it by one slash at most. -/
theorem dirText_short {text : List UInt8} (split : components text = names.map EntryName.bytes) :
    (dirText (text.head? = some slash) names).length ≤ text.length + 1 ∧
      names.length ≤ text.length + 1 := by
  have width : (names.map fun name => name.bytes.length + 1).sum =
      ((components text).map fun name => name.length + 1).sum := by
    rw [split, List.map_map]
    rfl
  have count : ∀ names : List EntryName,
      names.length ≤ (names.map fun name => name.bytes.length + 1).sum := by
    intro names
    induction names with
    | nil => exact Nat.le_refl 0
    | cons name names ih =>
      rw [List.length_cons, List.map_cons, List.sum_cons]
      omega
  have few := count names
  have bound := componentsFrom_width [] text
  rw [← components, ← width, List.length_nil] at bound
  rw [dirText_length]
  by_cases absolute : text.head? = some slash
  · obtain ⟨more, rfl⟩ : ∃ more, text = slash :: more := by
      cases text with
      | nil => cases absolute
      | cons c more => exact ⟨more, by rw [Option.some.inj absolute]⟩
    have bound := componentsFrom_width [] more
    rw [← components, ← components_slashes 1 more] at bound
    rw [List.replicate_one, List.singleton_append, ← width, List.length_nil] at bound
    rw [if_pos (decide_eq_true absolute), List.length_cons]
    omega
  · rw [if_neg (by simpa using absolute)]
    omega

/-- After the call there are directories along the path, and nothing else has changed. -/
theorem gfcFsMkdirs_made (fs : GfcFs) (t : FileTree) (path : CText) (names : List EntryName)
    (split : components path.bytes = names.map EntryName.bytes) (short : path.bytes.length < 4095)
    (at_start : t.node (start fs.cwd path.bytes) = some .dir)
    (bare : ∀ p, p <+: names → t.node (start fs.cwd path.bytes ++ p) = none ∨
      t.node (start fs.cwd path.bytes ++ p) = some .dir) :
    ∃ t', gfcFsMkdirs fs t path = some t' ∧ MadeDirs t (start fs.cwd path.bytes) names t' := by
  unfold gfcFsMkdirs
  by_cases granted : fs.access t path.bytes = true
  · rw [if_pos granted]
    obtain ⟨l, resolved⟩ := Option.isSome_iff_exists.mp granted
    unfold resolve at resolved
    split at resolved
    · cases resolved
    · rw [lookups, split] at resolved
      exact ⟨t, rfl, dirs_of_walk at_start bare resolved, fun _ _ => rfl⟩
  · rw [if_neg granted, if_pos (Nat.lt_succ_of_lt short)]
    obtain ⟨n, rest⟩ : ∃ n, 4096 - path.bytes.length = n + 1 :=
      Nat.exists_eq_add_one_of_ne_zero (by omega)
    have ahead : Ahead (path.bytes ++ List.replicate (n + 1) 0) 0 path.bytes :=
      ⟨path.nulFree, n, rfl⟩
    obtain ⟨text_short, few⟩ := dirText_short split
    have made : MadeDirs t (start fs.cwd path.bytes) [] t := by
      refine ⟨fun p under => ?_, fun _ _ => rfl⟩
      rw [List.prefix_nil.mp under, List.append_nil]
      exact at_start
    have loop := @mkdirsLoop_made fs t t _ path.bytes 0 4096 (start fs.cwd path.bytes) names
      (path.bytes.head? = some slash) [] ahead split (by omega) (by simp [start])
      (by rw [List.nil_append]; omega) bare made
    rw [rest]
    -- `subpath` is inspected once its first token was cut off, which leaves its first byte.
    have first : ((strtok (path.bytes ++ List.replicate (n + 1) 0) 0).elim
        (path.bytes ++ List.replicate (n + 1) 0) fun result => result.2.1).head? =
        (path.bytes ++ List.replicate (n + 1) 0).head? := by
      cases names with
      | nil => rw [strtok_end ahead split, Option.elim_none]
      | cons name names =>
        obtain ⟨token, buffer', save', text', next, -, -, -, same⟩ := strtok_next ahead split
        rw [next]
        exact same
    have begins : (path.bytes ++ List.replicate (n + 1) 0).head? = some slash ↔
        path.bytes.head? = some slash := by
      cases path.bytes with
      | nil =>
        refine iff_of_false (by simp [List.replicate_succ, slash]) ?_
        rw [List.head?_nil]
        exact (Option.some_ne_none slash).symm
      | cons c text => exact Iff.rfl
    dsimp only
    rw [← List.head?_eq_getElem?, first]
    simp only [begins]
    simpa [dirText] using loop

def nameA : EntryName := ⟨[97], by decide, by decide, by decide, by decide⟩

def nameB : EntryName := ⟨[98], by decide, by decide, by decide, by decide⟩

/-- The directory `/a` with a directory `a`. -/
def nestedTree : FileTree where
  entries := [([nameA], .dir), ([nameA, nameA], .dir)]

/-- The path `a//b` from the directory `/a`. -/
theorem gfcFsMkdirs_made_relative :
    ∃ t', gfcFsMkdirs ⟨40, [nameA]⟩ nestedTree ⟨[97, slash, slash, 98], by decide⟩ = some t' ∧
      MadeDirs nestedTree [nameA] [nameA, nameB] t' := by
  have bare : ∀ p ∈ [nameA, nameB].inits, nestedTree.node ([nameA] ++ p) = none ∨
      nestedTree.node ([nameA] ++ p) = some .dir := by
    decide
  exact gfcFsMkdirs_made ⟨40, [nameA]⟩ nestedTree ⟨[97, slash, slash, 98], by decide⟩ [nameA, nameB]
    (by decide) (by decide) (by decide) fun p under => bare p ((List.mem_inits p _).mpr under)

end Guardwatch
