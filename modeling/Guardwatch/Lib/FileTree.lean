import Guardwatch.Lib.Bytes
import Mathlib.Data.List.Basic
import Mathlib.Algebra.BigOperators.Group.List.Basic
import Mathlib.Algebra.GroupWithZero.Nat

/-! A tree of directories, regular files and symbolic links, and the paths through it. -/

open Bytes in
/-- The name of an entry. -/
@[ext]
structure EntryName where
  bytes : List UInt8
  nonempty : bytes ≠ []
  slashFree : slash ∉ bytes
  nulFree : 0 ∉ bytes
  notDots : bytes ≠ dot ∧ bytes ≠ dotDot

instance : DecidableEq EntryName := fun _ _ => decidable_of_iff _ EntryName.ext_iff.symm

/-- The names of the directories from the root to an entry, and its own. -/
abbrev Location := List EntryName

inductive FileNode
  | dir
  | file
  | link (target : List UInt8)
deriving DecidableEq

/-- The entries below the root. -/
structure FileTree where
  entries : List (Location × FileNode)

open Bytes in
/-- The bytes as a name, and `none` for those that no entry has. -/
def EntryName.of (bytes : List UInt8) : Option EntryName :=
  if valid : bytes ≠ [] ∧ slash ∉ bytes ∧ 0 ∉ bytes ∧ bytes ≠ dot ∧ bytes ≠ dotDot then
    some ⟨bytes, valid.1, valid.2.1, valid.2.2.1, valid.2.2.2⟩
  else none

namespace FileTree

open Bytes

/-! ### Entries -/

def node (t : FileTree) (l : Location) : Option FileNode :=
  if l = [] then some .dir else (t.entries.find? fun entry => entry.1 = l).map Prod.snd

/-- The names of the entries of a directory. -/
def children (t : FileTree) (l : Location) : List EntryName :=
  (t.entries.filter fun entry => entry.1.dropLast = l).filterMap fun entry => entry.1.getLast?

def erase (t : FileTree) (l : Location) : FileTree where
  entries := t.entries.filter fun entry => entry.1 ≠ l

def makeDir (t : FileTree) (l : Location) : FileTree where
  entries := (l, .dir) :: t.entries

/-! ### Paths -/

/-- The names between the slashes, where the first one has begun with the given bytes. -/
def componentsFrom : (name : List UInt8) → List UInt8 → List (List UInt8)
  | name, [] => if name = [] then [] else [name]
  | name, c :: text =>
    if c = slash then
      if name = [] then componentsFrom [] text else name :: componentsFrom [] text
    else componentsFrom (name ++ [c]) text

def components (text : List UInt8) : List (List UInt8) := componentsFrom [] text

/-- The names that are looked up for a path. One that ends with a slash is that of a directory. -/
def lookups (text : List UInt8) : List (List UInt8) :=
  components text ++ if text.getLast? = some slash then [dot] else []

def start (here : Location) (text : List UInt8) : Location :=
  if text.head? = some slash then [] else here

/-- What a name is in a directory: another place in the tree, or a link. -/
inductive Found
  | place (l : Location)
  | link (target : List UInt8)

def lookup (t : FileTree) (here : Location) (name : List UInt8) : Option Found :=
  if t.node here = some .dir then
    if name = dot then some (.place here)
    else if name = dotDot then some (.place here.dropLast)
    else do
      let name ← EntryName.of name
      match ← t.node (here ++ [name]) with
      | .link target => if target = [] then none else some (.link target)
      | .dir => some (.place (here ++ [name]))
      | .file => some (.place (here ++ [name]))
  else none

/-- The names looked up one after another. What is looked up behind a link is left to `after`. -/
def steps (t : FileTree) (after : Location → List (List UInt8) → Option Location) :
    Location → List (List UInt8) → Option Location
  | here, [] => some here
  | here, name :: names =>
    match lookup t here name with
    | none => none
    | some (.place l) => steps t after l names
    | some (.link target) => after (start here target) (lookups target ++ names)

/-- The names looked up through at most the given number of links. -/
def walk (t : FileTree) : (links : Nat) → Location → List (List UInt8) → Option Location
  | 0 => steps t fun _ _ => none
  | links + 1 => steps t (walk t links)

/-- Where a path leads, through all of its links. -/
def resolve (t : FileTree) (links : Nat) (here : Location) (text : List UInt8) : Option Location :=
  if text = [] then none else walk t links (start here text) (lookups text)

/-- The entry of a path's last name, which may be a link. -/
def entry (t : FileTree) (links : Nat) (here : Location) (text : List UInt8) : Option Location :=
  ((components text).getLast?.bind EntryName.of).bind fun name =>
    (walk t links (start here text) (components text).dropLast).bind fun parent =>
      if t.node parent = some .dir ∧ t.node (parent ++ [name]) ≠ none then some (parent ++ [name])
      else none

/-- What a path names: the entry of its last name, or where it leads if the last are dots. -/
def named (t : FileTree) (links : Nat) (here : Location) (text : List UInt8) : Option Location :=
  match (components text).getLast?.bind EntryName.of with
  | none => resolve t links here text
  | some _ => entry t links here text

def unlink (t : FileTree) (links : Nat) (here : Location) (text : List UInt8) : FileTree :=
  match entry t links here text with
  | none => t
  | some l => if t.node l = some .dir ∨ text.getLast? = some slash then t else t.erase l

def rmdir (t : FileTree) (links : Nat) (here : Location) (text : List UInt8) : FileTree :=
  match entry t links here text with
  | none => t
  | some l => if t.node l = some .dir ∧ t.children l = [] then t.erase l else t

/-- `remove` of the C library. -/
def remove (t : FileTree) (links : Nat) (here : Location) (text : List UInt8) : FileTree :=
  if (entry t links here text).bind t.node = some .dir then t.rmdir links here text
  else t.unlink links here text

def mkdir (t : FileTree) (links : Nat) (here : Location) (text : List UInt8) : FileTree :=
  match (components text).getLast?.bind EntryName.of with
  | none => t
  | some name =>
    match walk t links (start here text) (components text).dropLast with
    | none => t
    | some parent =>
      if t.node parent = some .dir ∧ t.node (parent ++ [name]) = none then
        t.makeDir (parent ++ [name])
      else t

variable {t t' : FileTree} {l l' here : Location} {links links' : Nat} {path : List (List UInt8)}
  {text : List UInt8}

/-! ### Changes of the entries -/

theorem node_erase (below : l ≠ []) :
    (t.erase l).node l' = if l' = l then none else t.node l' := by
  by_cases same : l' = l
  · subst same
    simp [node, erase, below, List.find?_eq_none]
  · unfold node erase
    rw [if_neg same]
    split
    · rfl
    · rw [List.find?_filter]
      congr 2
      funext entry
      by_cases at_l : entry.1 = l'
      · simp [at_l, same]
      · simp [at_l]

theorem node_makeDir : (t.makeDir l).node l' = if l' = l then some .dir else t.node l' := by
  unfold node makeDir
  by_cases root : l' = []
  · simp [root]
  · by_cases same : l' = l
    · simp [same]
    · simp [same, Ne.symm same]

theorem mem_children {name : EntryName} : name ∈ t.children l ↔ t.node (l ++ [name]) ≠ none := by
  simp only [children, List.mem_filterMap, List.mem_filter, decide_eq_true_eq, node,
    List.append_eq_nil_iff, List.cons_ne_nil, and_false, if_false, ne_eq, Option.map_eq_none_iff,
    List.find?_eq_none, not_forall, not_not, exists_prop]
  refine exists_congr fun entry => ?_
  rw [and_assoc]
  refine and_congr_right fun _ => ⟨fun ⟨front, last⟩ => ?_, fun same => ?_⟩
  · rw [← front, List.dropLast_append_getLast? name last]
  · rw [same]
    simp

/-! ### Components -/

theorem componentsFrom_slash (name text more : List UInt8) :
    componentsFrom name (text ++ slash :: more) = componentsFrom name text ++ components more := by
  induction text generalizing name with
  | nil =>
    by_cases empty : name = []
    · simp [componentsFrom, components, empty]
    · simp [componentsFrom, components, empty]
  | cons c text ih =>
    rw [List.cons_append, componentsFrom, componentsFrom]
    split
    · split
      · rw [ih]
      · rw [ih, List.cons_append]
    · rw [ih]

theorem componentsFrom_name {name bytes : List UInt8} (nonempty : name ++ bytes ≠ [])
    (slashFree : slash ∉ bytes) : componentsFrom name bytes = [name ++ bytes] := by
  induction bytes generalizing name with
  | nil =>
    rw [List.append_nil] at nonempty ⊢
    exact if_neg nonempty
  | cons c bytes ih =>
    rw [List.mem_cons, not_or] at slashFree
    rw [componentsFrom, if_neg (Ne.symm slashFree.1), ih (by simp) slashFree.2,
      List.append_assoc, List.singleton_append]

/-- The path of an entry of a directory. -/
theorem components_entry (text : List UInt8) (name : EntryName) :
    components (text ++ slash :: name.bytes) = components text ++ [name.bytes] := by
  have nonempty : [] ++ name.bytes ≠ [] := name.nonempty
  rw [components, componentsFrom_slash]
  congr 1
  exact componentsFrom_name nonempty name.slashFree

theorem entryName_of (name : EntryName) : EntryName.of name.bytes = some name :=
  dif_pos ⟨name.nonempty, name.slashFree, name.nulFree, name.notDots⟩

theorem of_eq_some {bytes : List UInt8} {name : EntryName} (of : EntryName.of bytes = some name) :
    bytes = name.bytes := by
  unfold EntryName.of at of
  split at of
  · cases of
    rfl
  · cases of

/-! ### Walks -/

/-- The entries of a tree are those of another. -/
def Within (t' t : FileTree) : Prop := ∀ l x, t'.node l = some x → t.node l = some x

theorem lookup_mono (within : Within t' t) {name : List UInt8} {found : Found}
    (at_name : lookup t' here name = some found) : lookup t here name = some found := by
  unfold lookup at at_name ⊢
  split at at_name
  · rename_i at_here
    rw [if_pos (within here _ at_here)]
    split_ifs at at_name ⊢
    · exact at_name
    · exact at_name
    · obtain ⟨name, of, at_name⟩ := Option.bind_eq_some_iff.mp at_name
      obtain ⟨x, at_x, found⟩ := Option.bind_eq_some_iff.mp at_name
      exact Option.bind_eq_some_iff.mpr
        ⟨name, of, Option.bind_eq_some_iff.mpr ⟨x, within _ x at_x, found⟩⟩
  · cases at_name

theorem steps_mono (within : Within t' t)
    {after after' : Location → List (List UInt8) → Option Location}
    (further : ∀ here path l, after' here path = some l → after here path = some l)
    (walked : steps t' after' here path = some l) : steps t after here path = some l := by
  induction path generalizing here with
  | nil => exact walked
  | cons name path ih =>
    rw [steps] at walked ⊢
    cases at_name : lookup t' here name with
    | none =>
      rw [at_name] at walked
      cases walked
    | some found =>
      rw [at_name] at walked
      rw [lookup_mono within at_name]
      cases found with
      | place l => exact ih walked
      | link target => exact further _ _ _ walked

theorem walk_mono (within : Within t' t) (fewer : links' ≤ links)
    (walked : walk t' links' here path = some l) : walk t links here path = some l := by
  induction links generalizing links' here path l with
  | zero =>
    obtain rfl := Nat.le_zero.mp fewer
    exact steps_mono within (fun _ _ _ missing => by cases missing) walked
  | succ links ih =>
    cases links' with
    | zero => exact steps_mono within (fun _ _ _ missing => by cases missing) walked
    | succ links' =>
      exact steps_mono within (fun _ _ _ => ih (Nat.le_of_succ_le_succ fewer)) walked

theorem resolve_mono (within : Within t' t) (fewer : links' ≤ links)
    (resolved : resolve t' links' here text = some l) : resolve t links here text = some l := by
  unfold resolve at resolved ⊢
  split_ifs at resolved ⊢
  exact walk_mono within fewer resolved

theorem walk_nil : walk t links here [] = some here := by
  cases links <;> rfl

theorem walk_cons (name : List UInt8) :
    walk t links here (name :: path) =
      match lookup t here name, links with
      | none, _ => none
      | some (.place l), _ => walk t links l path
      | some (.link _), 0 => none
      | some (.link target), links + 1 =>
        walk t links (start here target) (lookups target ++ path) := by
  cases links <;>
    · rw [walk, steps]
      cases lookup t here name with
      | none => rfl
      | some found => cases found <;> rfl

/-- A walk goes through a first part of its path, and on from there with the links that are left. -/
theorem walk_append {path' : List (List UInt8)}
    (walked : walk t links here (path ++ path') = some l) :
    ∃ l' links', walk t links here path = some l' ∧ links' ≤ links ∧
      walk t links' l' path' = some l := by
  induction links using Nat.strongRecOn generalizing here path with
  | ind links ih =>
    induction path generalizing here with
    | nil => exact ⟨here, links, walk_nil, Nat.le_refl _, walked⟩
    | cons name path ih' =>
      rw [List.cons_append, walk_cons] at walked
      rw [walk_cons]
      cases at_name : lookup t here name with
      | none =>
        rw [at_name] at walked
        cases walked
      | some found =>
        rw [at_name] at walked
        cases found with
        | place l => exact ih' walked
        | link target =>
          cases links with
          | zero => cases walked
          | succ links =>
            dsimp only at walked ⊢
            rw [← List.append_assoc] at walked
            obtain ⟨l', links', first, fewer, rest⟩ := ih links (Nat.lt_succ_self _) walked
            exact ⟨l', links', first, Nat.le_succ_of_le fewer, rest⟩

theorem walk_place {name : List UInt8} (at_name : lookup t here name = some (.place l)) :
    walk t links here [name] = some l := by
  rw [walk_cons, at_name]
  exact walk_nil

/-! ### Paths of directories and of their entries -/

theorem lookup_dot :
    lookup t here dot = if t.node here = some .dir then some (.place here) else none := by
  rw [lookup, if_pos rfl]

/-- A slash behind a path changes nothing. -/
theorem walk_lookups (walked : walk t links here (lookups text) = some l) :
    walk t links here (components text) = some l := by
  unfold lookups at walked
  split at walked
  · obtain ⟨l', links', first, -, last⟩ := walk_append walked
    rw [walk_cons, lookup_dot] at last
    split at last
    · cases last
    · rename_i at_l
      split at at_l
      · cases at_l
        rw [walk_nil] at last
        rwa [← Option.some.inj last]
      · cases at_l
    all_goals
      rename_i at_l
      split at at_l <;> cases at_l
  · rwa [List.append_nil] at walked

theorem start_append (nonempty : text ≠ []) (more : List UInt8) :
    start here (text ++ more) = start here text := by
  rw [start, start, List.head?_append_of_ne_nil _ nonempty]

theorem entry_eq_some :
    entry t links here text = some l ↔
      ∃ name parent, (components text).getLast?.bind EntryName.of = some name ∧
        walk t links (start here text) (components text).dropLast = some parent ∧
        t.node parent = some .dir ∧ t.node (parent ++ [name]) ≠ none ∧ l = parent ++ [name] := by
  simp only [entry, Option.bind_eq_some_iff (b := l), Option.ite_none_right_eq_some,
    Option.some.injEq, and_assoc, eq_comm (a := l), exists_and_left]

theorem getLast?_entry (text : List UInt8) (name : EntryName) :
    (text ++ slash :: name.bytes).getLast? ≠ some slash := by
  rw [← List.singleton_append, ← List.append_assoc, List.getLast?_append_of_ne_nil _ name.nonempty]
  exact fun at_last => name.slashFree (List.mem_of_getLast? at_last)

theorem lookups_entry (text : List UInt8) (name : EntryName) :
    lookups (text ++ slash :: name.bytes) = components text ++ [name.bytes] := by
  rw [lookups, if_neg (getLast?_entry text name), List.append_nil, components_entry]

theorem lookup_name {name : EntryName} {found : Found}
    (at_name : lookup t here name.bytes = some found) :
    t.node here = some .dir ∧ ∃ x, t.node (here ++ [name]) = some x ∧
      (found = .place (here ++ [name]) ∨
        ∃ target, x = .link target ∧ target ≠ [] ∧ found = .link target) := by
  rw [lookup, if_neg name.notDots.1, if_neg name.notDots.2, entryName_of] at at_name
  split at at_name
  · rename_i at_here
    rw [Option.bind_eq_bind, Option.bind_some] at at_name
    obtain ⟨x, at_x, found⟩ := Option.bind_eq_some_iff.mp at_name
    refine ⟨at_here, x, at_x, ?_⟩
    cases x with
    | dir => exact .inl (Option.some.inj found).symm
    | file => exact .inl (Option.some.inj found).symm
    | link target =>
      dsimp only at found
      split at found
      · cases found
      · rename_i nonempty
        exact .inr ⟨target, rfl, nonempty, (Option.some.inj found).symm⟩
  · cases at_name

/-- A name that is looked up is that of an entry, which is found or leads further. -/
theorem walk_name {name : EntryName} (walked : walk t links here [name.bytes] = some l) :
    t.node here = some .dir ∧ ∃ x, t.node (here ++ [name]) = some x ∧
      (l = here ++ [name] ∨
        ∃ target, x = .link target ∧ resolve t links here target = some l) := by
  rw [walk_cons] at walked
  cases at_name : lookup t here name.bytes with
  | none =>
    rw [at_name] at walked
    cases walked
  | some found =>
    obtain ⟨at_here, x, at_x, is_found⟩ := lookup_name at_name
    refine ⟨at_here, x, at_x, ?_⟩
    rw [at_name] at walked
    rcases is_found with rfl | ⟨target, is_link, nonempty, rfl⟩
    · left
      dsimp only at walked
      rw [walk_nil] at walked
      exact (Option.some.inj walked).symm
    · right
      cases links with
      | zero => cases walked
      | succ links =>
        dsimp only at walked
        rw [List.append_nil] at walked
        refine ⟨target, is_link, ?_⟩
        rw [resolve, if_neg nonempty]
        exact walk_mono (fun _ _ => id) (Nat.le_succ links) walked

/-- A walk that goes on with a name goes on from a directory with an entry of that name. -/
theorem walk_dir {name : EntryName} {path' : List (List UInt8)}
    (walked : walk t links here (path ++ name.bytes :: path') = some l) :
    ∃ d, walk t links here path = some d ∧ t.node d = some .dir ∧ t.node (d ++ [name]) ≠ none := by
  obtain ⟨d, links', first, -, rest⟩ := walk_append walked
  rw [walk_cons] at rest
  cases at_name : lookup t d name.bytes with
  | none =>
    rw [at_name] at rest
    cases rest
  | some found =>
    obtain ⟨at_d, x, at_x, -⟩ := lookup_name at_name
    refine ⟨d, first, at_d, ?_⟩
    rw [at_x]
    nofun

/-- A path that leads somewhere names something. -/
theorem named_of_resolve (resolved : resolve t links here text = some l) :
    ∃ l', named t links here text = some l' := by
  unfold named
  cases last : (components text).getLast?.bind EntryName.of with
  | none => exact ⟨l, resolved⟩
  | some name =>
    obtain ⟨bytes, at_last, of⟩ := Option.bind_eq_some_iff.mp last
    obtain rfl := of_eq_some of
    unfold resolve at resolved
    split at resolved
    · cases resolved
    · have walked := walk_lookups resolved
      rw [← List.dropLast_append_getLast? _ at_last] at walked
      obtain ⟨parent, first, at_parent, there⟩ := walk_dir walked
      exact ⟨_, entry_eq_some.mpr ⟨name, parent, last, first, at_parent, there, rfl⟩⟩

/-- A path leads to the entry that it names, unless that is a link. -/
theorem resolve_entry (at_entry : entry t links here text = some l)
    (resolved : resolve t links here text = some l') :
    l' = l ∨ ∃ target, t.node l = some (.link target) := by
  obtain ⟨name, parent, last, walked, -, -, rfl⟩ := entry_eq_some.mp at_entry
  obtain ⟨bytes, at_last, of⟩ := Option.bind_eq_some_iff.mp last
  obtain rfl := of_eq_some of
  unfold resolve at resolved
  split at resolved
  · cases resolved
  · have through := walk_lookups resolved
    rw [← List.dropLast_append_getLast? _ at_last] at through
    obtain ⟨d, links', first, -, rest⟩ := walk_append through
    rw [walked] at first
    obtain rfl := Option.some.inj first
    obtain ⟨-, x, at_name, found⟩ := walk_name rest
    rcases found with same | ⟨target, is_link, -⟩
    · exact .inl same
    · exact .inr ⟨target, at_name.trans (congrArg some is_link)⟩

theorem entry_mono (within : Within t' t) (at_entry : entry t' links here text = some l) :
    entry t links here text = some l := by
  obtain ⟨name, parent, last, walked, at_parent, there, rfl⟩ := entry_eq_some.mp at_entry
  obtain ⟨x, at_name⟩ := Option.ne_none_iff_exists'.mp there
  refine entry_eq_some.mpr ⟨name, parent, last, walk_mono within (Nat.le_refl _) walked,
    within _ _ at_parent, ?_, rfl⟩
  rw [within _ x at_name]
  nofun

theorem named_mono (within : Within t' t) (at_named : named t' links here text = some l) :
    named t links here text = some l := by
  unfold named at at_named ⊢
  split
  · rename_i last
    rw [last] at at_named
    exact resolve_mono within (Nat.le_refl _) at_named
  · rename_i last
    rw [last] at at_named
    exact entry_mono within at_named

/-! ### Removals -/

/-- The entries are those of the tree, but for some that are gone at or below the location. -/
def GoneBelow (t : FileTree) (l : Location) (t' : FileTree) : Prop :=
  ∀ p, t'.node p = t.node p ∨ l <+: p ∧ t'.node p = none

theorem GoneBelow.refl (t : FileTree) (l : Location) : GoneBelow t l t := fun _ => .inl rfl

theorem GoneBelow.within (gone : GoneBelow t l t') : Within t' t := by
  intro p x at_p
  rcases gone p with same | ⟨-, none⟩
  · rw [← same, at_p]
  · rw [none] at at_p
    cases at_p

theorem GoneBelow.erase (gone : GoneBelow t l t') (under : l <+: l') (below : l' ≠ []) :
    GoneBelow t l (t'.erase l') := by
  intro p
  rw [node_erase below]
  split
  · rename_i same
    exact .inr ⟨same ▸ under, rfl⟩
  · exact gone p

theorem entry_ne_nil (at_entry : entry t links here text = some l) : l ≠ [] := by
  obtain ⟨name, parent, -, -, -, -, rfl⟩ := entry_eq_some.mp at_entry
  exact List.append_ne_nil_of_right_ne_nil _ (List.cons_ne_nil _ _)

theorem entry_named (at_entry : entry t links here text = some l) :
    named t links here text = some l := by
  obtain ⟨name, parent, last, -⟩ := entry_eq_some.mp at_entry
  rw [named, last]
  exact at_entry

theorem rmdir_cases (t : FileTree) (links : Nat) (here : Location) (text : List UInt8) :
    rmdir t links here text = t ∨
      ∃ l, entry t links here text = some l ∧ t.node l = some .dir ∧ t.children l = [] ∧
        rmdir t links here text = t.erase l := by
  unfold rmdir
  cases entry t links here text with
  | none => exact .inl rfl
  | some l =>
    dsimp only
    split
    · rename_i empty
      exact .inr ⟨l, rfl, empty.1, empty.2, rfl⟩
    · exact .inl rfl

theorem remove_cases (t : FileTree) (links : Nat) (here : Location) (text : List UInt8) :
    remove t links here text = t ∨
      ∃ l, entry t links here text = some l ∧ remove t links here text = t.erase l := by
  unfold remove
  split
  · rcases rmdir_cases t links here text with kept | ⟨l, at_entry, -, -, removed⟩
    · exact .inl kept
    · exact .inr ⟨l, at_entry, removed⟩
  · unfold unlink
    cases entry t links here text with
    | none => exact .inl rfl
    | some l =>
      dsimp only
      split
      · exact .inl rfl
      · exact .inr ⟨l, rfl, rfl⟩

/-! ### Directories along a path -/

theorem lookup_missing {name : EntryName} (missing : t.node (here ++ [name]) = none) :
    lookup t here name.bytes = none := by
  cases at_name : lookup t here name.bytes with
  | none => rfl
  | some found =>
    obtain ⟨-, x, at_x, -⟩ := lookup_name at_name
    rw [missing] at at_x
    cases at_x

theorem lookup_dir {name : EntryName} (at_here : t.node here = some .dir)
    (at_name : t.node (here ++ [name]) = some .dir) :
    lookup t here name.bytes = some (.place (here ++ [name])) := by
  rw [lookup, if_pos at_here, if_neg name.notDots.1, if_neg name.notDots.2, entryName_of,
    Option.bind_eq_bind, Option.bind_some, at_name]
  rfl

/-- A walk goes through directories. -/
theorem walk_dirs {names : List EntryName}
    (dirs : ∀ p, p <+: names → t.node (here ++ p) = some .dir) (path' : List (List UInt8)) :
    walk t links here (names.map EntryName.bytes ++ path') =
      walk t links (here ++ names) path' := by
  induction names generalizing here with
  | nil => rw [List.map_nil, List.nil_append, List.append_nil]
  | cons name names ih =>
    have at_here := dirs [] List.nil_prefix
    have at_name := dirs [name] (List.cons_prefix_cons.mpr ⟨rfl, List.nil_prefix⟩)
    rw [List.append_nil] at at_here
    rw [List.map_cons, List.cons_append, walk_cons, lookup_dir at_here at_name]
    dsimp only
    rw [ih fun p under => ?_, List.append_assoc, List.singleton_append]
    rw [List.append_assoc, List.singleton_append]
    exact dirs _ (List.cons_prefix_cons.mpr ⟨rfl, under⟩)

/-- Where there are but directories along a path, a walk that comes through has gone through
them. -/
theorem dirs_of_walk {names : List EntryName} {path' : List (List UInt8)}
    (at_here : t.node here = some .dir)
    (bare : ∀ p, p <+: names → t.node (here ++ p) = none ∨ t.node (here ++ p) = some .dir)
    (walked : walk t links here (names.map EntryName.bytes ++ path') = some l) :
    ∀ p, p <+: names → t.node (here ++ p) = some .dir := by
  induction names generalizing here with
  | nil =>
    intro p under
    rw [List.prefix_nil.mp under, List.append_nil]
    exact at_here
  | cons name names ih =>
    rw [List.map_cons, List.cons_append, walk_cons] at walked
    rcases bare [name] (List.cons_prefix_cons.mpr ⟨rfl, List.nil_prefix⟩) with missing | at_name
    · rw [lookup_missing missing] at walked
      cases walked
    · rw [lookup_dir at_here at_name] at walked
      have further : ∀ p, p <+: names → t.node (here ++ [name] ++ p) = some .dir := by
        refine ih at_name (fun p under => ?_) walked
        rw [List.append_assoc, List.singleton_append]
        exact bare _ (List.cons_prefix_cons.mpr ⟨rfl, under⟩)
      intro p under
      cases p with
      | nil => rwa [List.append_nil]
      | cons name' p =>
        obtain ⟨rfl, rest⟩ := List.cons_prefix_cons.mp under
        have at_p := further p rest
        rwa [List.append_assoc, List.singleton_append] at at_p

theorem mkdir_missing {name : EntryName}
    (last : components text = path ++ [name.bytes])
    (walked : walk t links (start here text) path = some l) (at_l : t.node l = some .dir)
    (missing : t.node (l ++ [name]) = none) :
    mkdir t links here text = t.makeDir (l ++ [name]) := by
  rw [mkdir, last, List.getLast?_concat, Option.bind_some, entryName_of, List.dropLast_concat]
  dsimp only
  rw [walked]
  exact if_pos ⟨at_l, missing⟩

/-- The bytes of the components with one more for each. -/
theorem componentsFrom_width (name text : List UInt8) :
    ((componentsFrom name text).map fun name => name.length + 1).sum ≤
      name.length + text.length + 1 := by
  induction text generalizing name with
  | nil =>
    rw [componentsFrom]
    split <;> simp
  | cons c text ih =>
    have empty := ih []
    have longer := ih (name ++ [c])
    rw [List.length_nil] at empty
    rw [List.length_append, List.length_singleton] at longer
    rw [componentsFrom, List.length_cons]
    split
    · split
      · omega
      · rw [List.map_cons, List.sum_cons]
        omega
    · omega

end FileTree
