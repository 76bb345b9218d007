import Guardwatch.Gfc.Fs

/-! What `gfc_fs_rm` deletes: nothing but the entry that its path names and what is below it, where
no link leads to something elsewhere that it deletes. -/

namespace Guardwatch

open Bytes FileTree

/-- The path of what is below a path. -/
def pathBelow (path : List UInt8) (names : List EntryName) : List UInt8 :=
  path ++ names.flatMap fun name => slash :: name.bytes

/-- What the path names would be removed: the path leads to a regular file, or is that of an empty
directory. -/
def Removable (fs : GfcFs) (t : FileTree) (path : List UInt8) (p : Location) : Prop :=
  fs.stat t path = some .reg ∨
    fs.stat t path = some .dir ∧ t.node p = some .dir ∧ t.children p = []

/-- No path below the given one names something removable that is not at or below the location, and
all of them that the walk can come to fit the buffer. -/
structure Confined (fs : GfcFs) (t : FileTree) (path : List UInt8) (l : Location) : Prop where
  spared : ∀ names p, named t fs.links fs.cwd (pathBelow path names) = some p → ¬l <+: p →
    ¬Removable fs t (pathBelow path names) p
  fits : ∀ names dir, fs.opendir t (pathBelow path names) = some dir →
    ∀ name ∈ t.children dir, (pathBelow path names).length + 1 + name.bytes.length < 2048

variable {fs : GfcFs} {readdir : Readdir} {attrib : List UInt8 → FileMode} {t t' : FileTree}
  {path : List UInt8} {l p : Location} {depth : Nat} {names : List EntryName}

/-! ### Paths below a path -/

theorem pathBelow_concat (name : EntryName) :
    pathBelow path (names ++ [name]) = pathBelow path names ++ slash :: name.bytes := by
  simp [pathBelow]

theorem pathBelow_cons (name : EntryName) :
    pathBelow path (name :: names) = pathBelow (path ++ slash :: name.bytes) names := by
  simp [pathBelow]

theorem components_pathBelow :
    components (pathBelow path names) = components path ++ names.map EntryName.bytes := by
  induction names generalizing path with
  | nil => simp [pathBelow]
  | cons name names ih => simp [pathBelow_cons, ih, components_entry]

theorem getLast?_pathBelow (name : EntryName) :
    (components (pathBelow path (names ++ [name]))).getLast?.bind EntryName.of = some name := by
  rw [components_pathBelow, List.map_append, List.map_singleton, ← List.append_assoc,
    List.getLast?_concat, Option.bind_some, entryName_of]

theorem named_pathBelow (name : EntryName) :
    named t fs.links fs.cwd (pathBelow path (names ++ [name])) =
      entry t fs.links fs.cwd (pathBelow path (names ++ [name])) := by
  rw [named, getLast?_pathBelow]

/-- The path of an entry below a path names the entry. -/
theorem named_concat (nonempty : path ≠ []) (name : EntryName) :
    named t fs.links fs.cwd (pathBelow path (names ++ [name])) = some p ↔
      ∃ parent, walk t fs.links (start fs.cwd path) (components path ++ names.map EntryName.bytes) =
          some parent ∧
        t.node parent = some .dir ∧ t.node (parent ++ [name]) ≠ none ∧ p = parent ++ [name] := by
  have front : (components (pathBelow path (names ++ [name]))).dropLast =
      components path ++ names.map EntryName.bytes := by
    rw [components_pathBelow, List.map_append, List.map_singleton, ← List.append_assoc,
      List.dropLast_concat]
  have begins : start fs.cwd (pathBelow path (names ++ [name])) = start fs.cwd path :=
    start_append nonempty _
  rw [named_pathBelow, entry_eq_some, getLast?_pathBelow, front, begins]
  simp

/-- A path that is continued leads to a directory with the next entry. -/
theorem walk_of_named (nonempty : path ≠ []) {name : EntryName}
    (at_below : named t fs.links fs.cwd (pathBelow path (name :: names)) = some p) :
    ∃ dir, walk t fs.links (start fs.cwd path) (components path) = some dir ∧
      t.node dir = some .dir ∧ t.node (dir ++ [name]) ≠ none := by
  rcases List.eq_nil_or_concat names with rfl | ⟨front, last, rfl⟩
  · rw [← List.nil_append [name]] at at_below
    obtain ⟨parent, walked, at_parent, there, -⟩ := (named_concat nonempty name).mp at_below
    rw [List.map_nil, List.append_nil] at walked
    exact ⟨parent, walked, at_parent, there⟩
  · rw [List.concat_eq_append, ← List.cons_append] at at_below
    obtain ⟨parent, walked, -⟩ := (named_concat nonempty last).mp at_below
    exact walk_dir walked

theorem stat_mono (within : Within t' t) {mode : FileMode}
    (stats : fs.stat t' path = some mode) : fs.stat t path = some mode := by
  obtain ⟨x, at_path, rfl⟩ := Option.map_eq_some_iff.mp stats
  obtain ⟨q, resolved, at_q⟩ := Option.bind_eq_some_iff.mp at_path
  refine Option.map_eq_some_iff.mpr ⟨x, Option.bind_eq_some_iff.mpr ⟨q, ?_, within q x at_q⟩, rfl⟩
  exact resolve_mono within (Nat.le_refl _) resolved

theorem opendir_eq_some {dir : Location} :
    fs.opendir t path = some dir ↔
      resolve t fs.links fs.cwd path = some dir ∧ t.node dir = some .dir := by
  rw [GfcFs.opendir, Option.filter_eq_some_iff, decide_eq_true_eq]

theorem opendir_mono (within : Within t' t) {dir : Location}
    (opened : fs.opendir t' path = some dir) : fs.opendir t path = some dir := by
  rw [opendir_eq_some] at opened ⊢
  exact ⟨resolve_mono within (Nat.le_refl _) opened.1, within _ _ opened.2⟩

theorem stat_of_opendir {dir : Location} (opened : fs.opendir t path = some dir) :
    fs.stat t path = some .dir := by
  obtain ⟨resolved, at_dir⟩ := opendir_eq_some.mp opened
  rw [GfcFs.stat, resolved, Option.bind_some, at_dir]
  rfl

theorem stat_eq_some {mode : FileMode} (stats : fs.stat t path = some mode) :
    ∃ q x, resolve t fs.links fs.cwd path = some q ∧ t.node q = some x ∧
      (mode = .reg → x = .file) ∧ (mode = .dir → x = .dir) := by
  obtain ⟨x, at_path, rfl⟩ := Option.map_eq_some_iff.mp stats
  obtain ⟨q, resolved, at_q⟩ := Option.bind_eq_some_iff.mp at_path
  refine ⟨q, x, resolved, at_q, ?_⟩
  cases x <;> simp

theorem access_of_stat {mode : FileMode} (stats : fs.stat t path = some mode) :
    fs.access t path = true := by
  obtain ⟨q, x, resolved, -⟩ := stat_eq_some stats
  rw [GfcFs.access, resolved]
  rfl

/-! ### What is deleted -/

/-- The removal takes away nothing, or an entry that is removable. -/
theorem rm_cases (fs : GfcFs) (t : FileTree) (path : List UInt8) :
    gfcFsRm_ fs path t = t ∨ ∃ p, entry t fs.links fs.cwd path = some p ∧
      Removable fs t path p ∧ gfcFsRm_ fs path t = t.erase p := by
  unfold gfcFsRm_
  split
  · split
    · rename_i stats
      rcases remove_cases t fs.links fs.cwd path with kept | ⟨p, at_entry, removed⟩
      · exact .inl kept
      · exact .inr ⟨p, at_entry, .inl stats, removed⟩
    · rename_i stats
      rcases rmdir_cases t fs.links fs.cwd path with kept | ⟨p, at_entry, at_p, empty, removed⟩
      · exact .inl kept
      · exact .inr ⟨p, at_entry, .inr ⟨stats, at_p, empty⟩, removed⟩
    · exact .inl rfl
    · exact .inl rfl
  · exact .inl rfl

/-- The entry of a path is there while there are entries below it to which the path leads. -/
theorem node_of_named (within : Within t' t) (nonempty : path ≠ []) {name : EntryName}
    (at_path : named t fs.links fs.cwd path = some l)
    (at_below : named t' fs.links fs.cwd (pathBelow path (name :: names)) = some p) :
    t'.node l ≠ none := by
  obtain ⟨dir, walked, at_dir, -⟩ := walk_of_named nonempty at_below
  unfold named at at_path
  split at at_path
  · unfold resolve at at_path
    rw [if_neg nonempty] at at_path
    have same := walk_mono within (Nat.le_refl _) walked
    rw [walk_lookups at_path] at same
    rw [Option.some.inj same, at_dir]
    nofun
  · obtain ⟨name, parent, last, walked', -, -, rfl⟩ := entry_eq_some.mp at_path
    obtain ⟨bytes, at_last, of⟩ := Option.bind_eq_some_iff.mp last
    obtain rfl := of_eq_some of
    rw [← List.dropLast_append_getLast? _ at_last] at walked
    obtain ⟨d, first, -, there⟩ := walk_dir walked
    have same := walk_mono within (Nat.le_refl _) first
    rw [walked'] at same
    rwa [Option.some.inj same]

/-- A directory elsewhere that has no entries had none before: the directory of the location, which
is the one that may have lost an entry, is still needed for the path. -/
theorem childless_before (nonempty : path ≠ []) (at_path : named t fs.links fs.cwd path = some l)
    (gone : GoneBelow t l t')
    (at_entry : entry t' fs.links fs.cwd (pathBelow path names) = some p) (outside : ¬l <+: p)
    (empty : t'.children p = []) : t.children p = [] := by
  rw [List.eq_nil_iff_forall_not_mem]
  intro c child
  have there := mem_children.mp child
  have missing : t'.node (p ++ [c]) = none := by
    by_contra still
    have child := mem_children.mpr still
    rw [empty] at child
    cases child
  rcases gone (p ++ [c]) with same | ⟨under, -⟩
  · rw [same] at missing
    exact there missing
  · obtain rfl := (List.prefix_concat_iff.mp under).resolve_right outside
    cases names with
    | nil =>
      have at_p := named_mono gone.within (entry_named at_entry)
      rw [pathBelow, List.flatMap_nil, List.append_nil, at_path] at at_p
      exact absurd (Option.some.inj at_p) (by simp)
    | cons name names =>
      exact node_of_named gone.within nonempty at_path (entry_named at_entry) missing

/-- A removal takes away what is at or below the location only. -/
theorem rm_goneBelow (nonempty : path ≠ []) (at_path : named t fs.links fs.cwd path = some l)
    (confined : Confined fs t path l) (gone : GoneBelow t l t') :
    GoneBelow t l (gfcFsRm_ fs (pathBelow path names) t') := by
  rcases rm_cases fs t' (pathBelow path names) with kept | ⟨p, at_entry, removable, removed⟩
  · rwa [kept]
  · rw [removed]
    refine gone.erase (by_contra fun outside => ?_) (entry_ne_nil at_entry)
    apply confined.spared names p (named_mono gone.within (entry_named at_entry)) outside
    rcases removable with stats | ⟨stats, at_p, empty⟩
    · exact .inl (stat_mono gone.within stats)
    · exact .inr ⟨stat_mono gone.within stats, gone.within _ _ at_p,
        childless_before nonempty at_path gone at_entry outside empty⟩

/-- A fold that keeps a property at each step comes through, and keeps it. -/
theorem foldlM_some {α β : Type} {P : β → Prop} {f : β → α → Option β} {as : List α}
    (step : ∀ b, P b → ∀ a ∈ as, ∃ b', f b a = some b' ∧ P b') {b : β} (holds : P b) :
    ∃ b', as.foldlM f b = some b' ∧ P b' := by
  induction as generalizing b with
  | nil => exact ⟨b, rfl, holds⟩
  | cons a as ih =>
    obtain ⟨b', stepped, holds'⟩ := step b holds a List.mem_cons_self
    rw [List.foldlM_cons, stepped]
    exact ih (fun b holds a member => step b holds a (List.mem_cons_of_mem _ member)) holds'

/-- The walk from a path below the given one ends, and takes away what is at or below the location
only. -/
theorem gfcFsIterate_goneBelow (nonempty : path ≠ [])
    (at_path : named t fs.links fs.cwd path = some l) (confined : Confined fs t path l)
    (gone : GoneBelow t l t') (deep : 2048 ≤ depth + (pathBelow path names).length)
    (positive : 0 < depth) :
    ∃ t'', gfcFsIterate fs readdir attrib (gfcFsRm_ fs) depth (pathBelow path names) t' = some t'' ∧
      GoneBelow t l t'' := by
  induction depth generalizing names t' with
  | zero => exact absurd positive (Nat.lt_irrefl 0)
  | succ depth ih =>
    have removed : ∀ t', GoneBelow t l t' →
        GoneBelow t l (gfcFsRm_ fs (pathBelow path names) t') :=
      fun t' gone => rm_goneBelow nonempty at_path confined gone
    rw [gfcFsIterate]
    split
    · exact ⟨_, rfl, removed t' gone⟩
    · cases opened : fs.opendir t' (pathBelow path names) with
      | none => exact ⟨t', rfl, gone⟩
      | some dir =>
        have fits := confined.fits names dir (opendir_mono gone.within opened)
        have step : ∀ t₁, GoneBelow t l t₁ →
            ∀ name ∈ readdir.names (pathBelow path names) t' dir, ∃ t₂,
              iterateEntry (gfcFsIterate fs readdir attrib (gfcFsRm_ fs) depth)
                (pathBelow path names) t₁ name = some t₂ ∧ GoneBelow t l t₂ := by
          intro t₁ gone₁ name listed
          unfold iterateEntry
          split
          · exact ⟨t₁, rfl, gone₁⟩
          · rename_i proper
            obtain ⟨entry, child, rfl⟩ : ∃ entry ∈ t'.children dir, entry.bytes = name := by
              rcases readdir.listed _ t' dir name listed with is_dot | is_dotdot | child
              · exact absurd (.inl is_dot) proper
              · exact absurd (.inr is_dotdot) proper
              · exact child
            have child : entry ∈ t.children dir := by
              rw [mem_children] at child ⊢
              obtain ⟨x, at_entry⟩ := Option.ne_none_iff_exists'.mp child
              rw [gone.within _ x at_entry]
              nofun
            have short := fits entry child
            have longer := List.length_pos_iff.mpr entry.nonempty
            rw [if_pos short, ← pathBelow_concat]
            apply ih gone₁
            · rw [pathBelow_concat, List.length_append, List.length_cons]
              omega
            · omega
        obtain ⟨t'', folded, gone''⟩ := foldlM_some step gone
        dsimp only
        rw [folded]
        exact ⟨_, rfl, removed t'' gone''⟩
    · exact ⟨_, rfl, removed t' gone⟩

/-! ### What is deleted elsewhere -/

theorem rm_within (path : List UInt8) (t : FileTree) : Within (gfcFsRm_ fs path t) t := by
  have gone : GoneBelow t [] (gfcFsRm_ fs path t) := by
    rcases rm_cases fs t path with kept | ⟨p, at_entry, -, removed⟩
    · rw [kept]
      exact .refl t []
    · rw [removed]
      exact (GoneBelow.refl t []).erase List.nil_prefix (entry_ne_nil at_entry)
  exact gone.within

theorem foldlM_within {α : Type} {f : FileTree → α → Option FileTree} {as : List α}
    (step : ∀ t a t', f t a = some t' → Within t' t) (folded : as.foldlM f t = some t') :
    Within t' t := by
  induction as generalizing t with
  | nil =>
    cases folded
    exact fun _ _ => id
  | cons a as ih =>
    rw [List.foldlM_cons] at folded
    obtain ⟨t₁, stepped, folded⟩ := Option.bind_eq_some_iff.mp folded
    exact fun p x at_p => step t a t₁ stepped p x (ih folded p x at_p)

theorem iterateEntry_within {iterate : List UInt8 → FileTree → Option FileTree}
    (step : ∀ path t t', iterate path t = some t' → Within t' t) {name : List UInt8}
    (entered : iterateEntry iterate path t name = some t') : Within t' t := by
  unfold iterateEntry at entered
  split_ifs at entered
  · cases entered
    exact fun _ _ => id
  · exact step _ _ _ entered

theorem gfcFsIterate_within
    (walked : gfcFsIterate fs readdir attrib (gfcFsRm_ fs) depth path t = some t') :
    Within t' t := by
  induction depth generalizing path t t' with
  | zero => cases walked
  | succ depth ih =>
    rw [gfcFsIterate] at walked
    split at walked
    · cases walked
      exact rm_within path t
    · split at walked
      · cases walked
        exact fun _ _ => id
      · obtain ⟨t₁, folded, rfl⟩ := Option.map_eq_some_iff.mp walked
        have within : Within t₁ t :=
          foldlM_within (fun _ _ _ => iterateEntry_within fun _ _ _ => ih) folded
        exact fun p x at_p => within p x (rm_within path t₁ p x at_p)
    · cases walked
      exact rm_within path t

/-- The directories of the path and of the names behind it are there, each with the next name. -/
def Leads (fs : GfcFs) (t : FileTree) : (path : List UInt8) → List EntryName → Prop
  | _, [] => True
  | path, name :: names => ∃ dir, fs.opendir t path = some dir ∧ name ∈ t.children dir ∧
      Leads fs t (path ++ slash :: name.bytes) names

theorem leads_of_named {first : Location}
    (there : resolve t fs.links fs.cwd path = some first)
    (at_below : named t fs.links fs.cwd (pathBelow path names) = some p) :
    Leads fs t path names := by
  induction names generalizing path first with
  | nil => trivial
  | cons name names ih =>
    have nonempty : path ≠ [] := by
      rintro rfl
      cases there
    obtain ⟨dir, walked, at_dir, child⟩ := walk_of_named nonempty at_below
    have opened : fs.opendir t path = some dir := by
      have same := there
      rw [resolve, if_neg nonempty] at same
      rw [opendir_eq_some, there, ← walk_lookups same, walked]
      exact ⟨rfl, at_dir⟩
    refine ⟨dir, opened, mem_children.mpr child, ?_⟩
    cases names with
    | nil => trivial
    | cons next names =>
      have longer : path ++ slash :: name.bytes ≠ [] := by simp
      rw [pathBelow_cons] at at_below
      obtain ⟨dir', walked', -⟩ := walk_of_named longer at_below
      refine @ih _ dir' ?_ at_below
      rw [resolve, if_neg longer, lookups_entry, ← components_entry, walked']

/-- The name that comes next behind a path on the way along the names. -/
def nextName : (path : List UInt8) → List EntryName → List UInt8 → Option EntryName
  | _, [], _ => none
  | path, name :: names, q =>
    if q = path then some name else nextName (path ++ slash :: name.bytes) names q

/-- The order in which the walk goes along the names first; those come once more with all others. -/
def alongFirst (path : List UInt8) (names : List EntryName) : Readdir where
  names q t l := (((nextName path names q).toList.filter fun name => name ∈ t.children l) ++
    t.children l).map EntryName.bytes
  listed q t l name member := by
    obtain ⟨entry, listed, rfl⟩ := List.mem_map.mp member
    refine .inr (.inr ⟨entry, ?_, rfl⟩)
    rcases List.mem_append.mp listed with next | child
    · exact of_decide_eq_true (List.mem_filter.mp next).2
    · exact child

theorem alongFirst_first (path : List UInt8) (names : List EntryName) :
    ∀ q, path.length ≤ q.length → ∀ name ∈ nextName path names q, ∀ l, name ∈ t.children l →
      ∃ rest, (alongFirst path names).names q t l = name.bytes :: rest := by
  intro q _ name next l child
  rw [Option.mem_def] at next
  refine ⟨(t.children l).map EntryName.bytes, ?_⟩
  simp [alongFirst, next, child]

theorem alongFirst_children {path' : List UInt8} {name : EntryName} (child : name ∈ t.children l) :
    name.bytes ∈ (alongFirst path names).names path' t l :=
  List.mem_map_of_mem (List.mem_append_right _ child)

/-- What is spoilt at the end of the way along the names is so at its beginning. -/
theorem gfcFsIterate_along {P : Option FileTree → Prop} (lost : P none)
    (further : ∀ t₁ t₂, Within t₂ t₁ → P (some t₁) → P (some t₂))
    (leads : Leads fs t path names)
    (first : ∀ q, path.length ≤ q.length → ∀ name ∈ nextName path names q, ∀ l,
      name ∈ t.children l → ∃ rest, readdir.names q t l = name.bytes :: rest)
    (spoilt : ∀ depth,
      P (gfcFsIterate fs readdir attrib (gfcFsRm_ fs) depth (pathBelow path names) t)) :
    P (gfcFsIterate fs readdir attrib (gfcFsRm_ fs) depth path t) := by
  induction names generalizing path depth with
  | nil =>
    have here := spoilt depth
    rwa [pathBelow, List.flatMap_nil, List.append_nil] at here
  | cons name names ih =>
    obtain ⟨dir, opened, child, leads⟩ := leads
    cases depth with
    | zero => exact lost
    | succ depth =>
      obtain ⟨rest, listing⟩ := first path (Nat.le_refl _) name (if_pos rfl) dir child
      rw [gfcFsIterate, stat_of_opendir opened, opened]
      dsimp only [Option.getD_some]
      rw [listing, List.foldlM_cons]
      have entered : P (iterateEntry (gfcFsIterate fs readdir attrib (gfcFsRm_ fs) depth) path t
          name.bytes) := by
        unfold iterateEntry
        rw [if_neg (not_or.mpr name.notDots)]
        split
        · apply ih leads
          · intro q longer next at_q
            rw [List.length_append, List.length_cons] at longer
            refine first q (by omega) next ?_
            rw [nextName, if_neg (by rintro rfl; omega)]
            exact at_q
          · intro depth
            rw [← pathBelow_cons]
            exact spoilt depth
        · exact lost
      cases at_first : iterateEntry (gfcFsIterate fs readdir attrib (gfcFsRm_ fs) depth) path t
          name.bytes with
      | none => exact lost
      | some t₁ =>
        rw [at_first] at entered
        dsimp only [Option.bind_eq_bind, Option.bind_some]
        cases folded : rest.foldlM
            (iterateEntry (gfcFsIterate fs readdir attrib (gfcFsRm_ fs) depth) path) t₁ with
        | none => exact lost
        | some t₂ =>
          have within : Within t₂ t₁ :=
            foldlM_within (fun _ _ _ => iterateEntry_within fun _ _ _ => gfcFsIterate_within)
              folded
          exact further t₁ _ (fun p x at_p => within p x (rm_within path t₂ p x at_p)) entered

/-- The removal of what is removable takes it away. -/
theorem rm_removable (at_entry : entry t fs.links fs.cwd path = some p)
    (unslashed : path.getLast? ≠ some slash) (removable : Removable fs t path p) :
    (gfcFsRm_ fs path t).node p = none := by
  have erased : (t.erase p).node p = none := by
    rw [node_erase (entry_ne_nil at_entry), if_pos rfl]
  unfold gfcFsRm_
  rcases removable with stats | ⟨stats, at_p, empty⟩
  · obtain ⟨q, x, resolved, at_q, is_file, -⟩ := stat_eq_some stats
    have file : t.node p ≠ some .dir := by
      intro at_p
      rcases resolve_entry at_entry resolved with rfl | ⟨target, is_link⟩
      · rw [at_p, is_file rfl] at at_q
        cases at_q
      · rw [at_p] at is_link
        cases is_link
    rw [if_pos (access_of_stat stats), stats]
    dsimp only
    rw [remove, at_entry, Option.bind_some, if_neg file, unlink, at_entry]
    dsimp only
    rwa [if_neg (not_or.mpr ⟨file, unslashed⟩)]
  · rw [if_pos (access_of_stat stats), stats]
    dsimp only
    rw [rmdir, at_entry]
    dsimp only
    rwa [if_pos ⟨at_p, empty⟩]

/-- In a directory without entries nothing happens. -/
theorem foldlM_dots {iterate : List UInt8 → FileTree → Option FileTree} {as : List (List UInt8)}
    (dots : ∀ name ∈ as, name = dot ∨ name = dotDot) :
    as.foldlM (iterateEntry iterate path) t = some t := by
  have step : ∀ t', t' = t → ∀ name ∈ as,
      ∃ t'', iterateEntry iterate path t' name = some t'' ∧ t'' = t :=
    fun t' same name listed => ⟨t', if_pos (dots name listed), same⟩
  obtain ⟨t', folded, same⟩ := foldlM_some step rfl
  rw [folded, same]

theorem foldlM_none {α β : Type} {f : β → α → Option β} {as : List α} {a : α} (member : a ∈ as)
    (lost : ∀ b, f b a = none) (b : β) : as.foldlM f b = none := by
  induction as generalizing b with
  | nil => cases member
  | cons c as ih =>
    rw [List.foldlM_cons]
    rcases List.mem_cons.mp member with rfl | member
    · rw [lost]
      rfl
    · cases f b c with
      | none => rfl
      | some b' => exact ih member b'

/-- The walk at a removable entry removes it. -/
theorem gfcFsIterate_removable (at_entry : entry t fs.links fs.cwd path = some p)
    (unslashed : path.getLast? ≠ some slash) (removable : Removable fs t path p) (depth : Nat) :
    ∀ t', gfcFsIterate fs readdir attrib (gfcFsRm_ fs) depth path t = some t' →
      t'.node p = none := by
  intro t' walked
  have removed := rm_removable at_entry unslashed removable
  cases depth with
  | zero => cases walked
  | succ depth =>
    rw [gfcFsIterate] at walked
    rcases removable with stats | ⟨stats, at_p, empty⟩
    · rw [stats] at walked
      cases walked
      exact removed
    · obtain ⟨q, x, resolved, at_q, -, is_dir⟩ := stat_eq_some stats
      obtain rfl : q = p := by
        rcases resolve_entry at_entry resolved with same | ⟨target, is_link⟩
        · exact same
        · rw [at_p] at is_link
          cases is_link
      have opened : fs.opendir t path = some q := opendir_eq_some.mpr ⟨resolved, at_p⟩
      have dots : ∀ name ∈ readdir.names path t q, name = dot ∨ name = dotDot := by
        intro name listed
        rcases readdir.listed path t q name listed with is_dot | is_dotdot | ⟨entry, child, -⟩
        · exact .inl is_dot
        · exact .inr is_dotdot
        · rw [empty] at child
          cases child
      rw [stats, opened] at walked
      dsimp only [Option.getD_some] at walked
      rw [foldlM_dots dots] at walked
      cases walked
      exact removed

/-- The walk at a directory with an entry whose path is too long does not come through. -/
theorem gfcFsIterate_long {dir : Location} {name : EntryName}
    (opened : fs.opendir t path = some dir) (listed : name.bytes ∈ readdir.names path t dir)
    (long : ¬path.length + 1 + name.bytes.length < 2048) (depth : Nat) :
    gfcFsIterate fs readdir attrib (gfcFsRm_ fs) depth path t = none := by
  cases depth with
  | zero => rfl
  | succ depth =>
    have lost : ∀ t', iterateEntry (gfcFsIterate fs readdir attrib (gfcFsRm_ fs) depth) path t'
        name.bytes = none := by
      intro t'
      rw [iterateEntry, if_neg (not_or.mpr name.notDots), if_neg long]
    rw [gfcFsIterate, stat_of_opendir opened, opened]
    dsimp only [Option.getD_some]
    rw [foldlM_none listed lost]
    rfl

/-- In whatever order the directories are read, the call returns and deletes nothing but the entry
that the path names and what is below it, if and only if nothing removable elsewhere is below the
path. -/
theorem gfcFsRm_goneBelow_iff {path : CText} (there : fs.access t path.bytes = true)
    (at_path : named t fs.links fs.cwd path.bytes = some l) :
    (∀ readdir attrib, ∃ t', gfcFsRm fs readdir attrib t path = some t' ∧ GoneBelow t l t') ↔
      Confined fs t path.bytes l := by
  obtain ⟨first, resolved⟩ := Option.isSome_iff_exists.mp there
  have nonempty : path.bytes ≠ [] := by
    intro empty
    rw [empty] at resolved
    cases resolved
  have here : pathBelow path.bytes [] = path.bytes := List.append_nil _
  simp only [gfcFsRm, there, if_true]
  constructor
  · intro every
    constructor
    case spared =>
      intro names p at_p outside removable
      rcases List.eq_nil_or_concat names with rfl | ⟨front, last, rfl⟩
      · rw [here, at_path] at at_p
        exact outside (Option.some.inj at_p ▸ List.prefix_refl l)
      · rw [List.concat_eq_append] at at_p removable
        obtain ⟨parent, -, -, still, at_last⟩ := (named_concat nonempty last).mp at_p
        have at_entry := (named_pathBelow last).symm.trans at_p
        have unslashed : (pathBelow path.bytes (front ++ [last])).getLast? ≠ some slash := by
          rw [pathBelow_concat]
          exact getLast?_entry _ last
        have gone_there : ∀ t', gfcFsIterate fs (alongFirst path.bytes (front ++ [last]))
            (fun _ => .other) (gfcFsRm_ fs) 2049 path.bytes t = some t' → t'.node p = none := by
          apply gfcFsIterate_along (P := fun result => ∀ t', result = some t' → t'.node p = none)
            nofun ?_ (leads_of_named resolved at_p) (alongFirst_first _ _)
            (gfcFsIterate_removable at_entry unslashed removable)
          intro t₁ t₂ within gone t' same
          obtain rfl := Option.some.inj same
          by_contra still
          obtain ⟨x, at_x⟩ := Option.ne_none_iff_exists'.mp still
          have before := within p x at_x
          rw [gone t₁ rfl] at before
          cases before
        obtain ⟨t', walked, gone⟩ := every (alongFirst path.bytes (front ++ [last])) fun _ => .other
        rcases gone p with same | ⟨inside, -⟩
        · rw [gone_there t' walked, at_last] at same
          exact still same.symm
        · exact outside inside
    case fits =>
      intro names dir opened name child
      by_contra long
      obtain ⟨t', walked, -⟩ := every (alongFirst path.bytes names) fun _ => .other
      obtain ⟨p, at_p⟩ := named_of_resolve (opendir_eq_some.mp opened).1
      have lost : gfcFsIterate fs (alongFirst path.bytes names) (fun _ => .other) (gfcFsRm_ fs) 2049
          path.bytes t = none :=
        gfcFsIterate_along (P := fun result => result = none) rfl nofun
          (leads_of_named resolved at_p) (alongFirst_first _ _)
          fun depth => gfcFsIterate_long opened (alongFirst_children child) long depth
      rw [walked] at lost
      cases lost
  · intro confined readdir attrib
    rw [← here]
    exact gfcFsIterate_goneBelow nonempty at_path confined (.refl t l) (by omega) (by decide)

def nameD : EntryName := ⟨[100], by decide, by decide, by decide, by decide⟩

def nameF : EntryName := ⟨[102], by decide, by decide, by decide, by decide⟩

def nameL : EntryName := ⟨[108], by decide, by decide, by decide, by decide⟩

def nameO : EntryName := ⟨[111], by decide, by decide, by decide, by decide⟩

/-- The directory `/d` with a link to the directory `/o`, in which there is a regular file. -/
def linkedTree : FileTree where
  entries := [([nameD], .dir), ([nameD, nameL], .link [slash, 111]), ([nameO], .dir),
    ([nameO, nameF], .file)]

def pathD : CText := ⟨[slash, 100], by decide⟩

theorem gfcFsRm_goneBelow_iff_linked :
    (∀ readdir attrib, ∃ t', gfcFsRm ⟨40, []⟩ readdir attrib linkedTree pathD = some t' ∧
        GoneBelow linkedTree [nameD] t') ↔
      Confined ⟨40, []⟩ linkedTree pathD.bytes [nameD] :=
  gfcFsRm_goneBelow_iff (by decide +kernel) (by decide +kernel)

/-- The file behind the link is deleted. -/
theorem gfcFsRm_goneBelow_fails :
    ¬∀ (fs : GfcFs) (readdir : Readdir) (attrib : List UInt8 → FileMode) (t : FileTree)
      (path : CText) (l : Location), fs.access t path.bytes = true →
      named t fs.links fs.cwd path.bytes = some l →
        ∃ t', gfcFsRm fs readdir attrib t path = some t' ∧ GoneBelow t l t' := by
  intro every
  obtain ⟨t', removed, gone⟩ := every ⟨40, []⟩ (alongFirst [] []) (fun _ => .other) linkedTree
    pathD [nameD] (by decide +kernel) (by decide +kernel)
  have lost : ((gfcFsRm ⟨40, []⟩ (alongFirst [] []) (fun _ => .other) linkedTree pathD).map
      fun t' => t'.node [nameO, nameF]) = some none := by
    decide +kernel
  rw [removed, Option.map_some, Option.some.injEq] at lost
  rcases gone [nameO, nameF] with same | ⟨inside, -⟩
  · rw [lost] at same
    exact absurd same (by decide +kernel)
  · exact absurd inside (by decide +kernel)

end Guardwatch
