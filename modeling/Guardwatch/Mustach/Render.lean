import Guardwatch.Mustach.Json

/-! What templates mean for JSON values: sections as repetitions over the values that they stand
for, without a stack of iterators. -/

namespace Guardwatch.Mustach

open CInput

/-- An output and the layout behind it; a part that is not a part of this meaning has none. -/
abbrev Rendering := Option (Except MustachError (List UInt8 × Layout))

def Rendering.andThen (first : Rendering) (second : Layout → Rendering) : Rendering :=
  match first with
  | some (.ok (out, layout)) => (second layout).map (·.map (·.map (out ++ ·) id))
  | result => result

/-- The output of the parts one after another. -/
def Rendering.each {β : Type} (part : β → Layout → Rendering) : List β → Layout → Rendering
  | [], layout => some (.ok ([], layout))
  | b :: more, layout => (part b layout).andThen (each part more)

variable {α : Type}

/-- The values that a section of a value repeats its text for. -/
def instances (json : JsonC α) (o : α) : List α :=
  if json.getType o = .array then json.items o
  else if json.getType o = .object ∨ json.getBoolean o then [o]
  else []

/-- The values for a name, below at most as many others as `stack` has room for. -/
def sectionObjs (json : JsonC α) (contexts : List α) (name : List UInt8) :
    Except MustachError (List α) :=
  match select json contexts name with
  | none => .ok []
  | some o => if contexts.length ≥ mustachMaxDepth then .error .tooDeep else .ok (instances json o)

/-- The meaning of a tree without partials, in the context of the values around it. -/
def Body.render (json : JsonC α) (outer : List UInt8) : Body → List α → Layout → Rendering
  | .finish text, _, layout => some (.ok (textEnd outer layout text, layout))
  | .close text, _, layout => some (.ok (textTag outer true true layout text))
  | .fail e, _, _ => some (.error e)
  | .unknown, _, _ => none
  | .partials _ _ _, _, _ => none
  | .comment text rest, contexts, layout =>
    Rendering.andThen (some (.ok (textTag outer true true layout text)))
      (rest.render json outer contexts)
  | .replacement text name escape rest, contexts, layout =>
    Rendering.andThen (some (.ok (textTag outer true false layout text))) fun layout =>
      Rendering.andThen
        (some (.ok (emit ((getoptional json contexts name).getD []) escape, layout)))
        (rest.render json outer contexts)
  | .nested text inverted name body rest, contexts, layout =>
    Rendering.andThen (some (.ok (textTag outer true true layout text))) fun layout =>
      match sectionObjs json contexts name with
      | .error e => some (.error e)
      | .ok objs =>
        Rendering.andThen
          (if inverted = objs.isEmpty then
            if inverted then body.render json outer contexts layout
            else Rendering.each (fun o => body.render json outer (o :: contexts)) objs layout
          else (body.skip layout).map (·.map ([], ·)))
          (rest.render json outer contexts)

/-! ### The callbacks compute the meaning -/

theorem Rendering.andThen_cases {first : Rendering} {second : Layout → Rendering}
    {result : Except MustachError (List UInt8 × Layout)}
    (done : first.andThen second = some result) :
    (∃ e, first = some (.error e) ∧ result = .error e) ∨
      ∃ out layout more, first = some (.ok (out, layout)) ∧ second layout = some more ∧
        result = more.map (·.map (out ++ ·) id) := by
  cases first with
  | none => cases done
  | some first =>
    cases first with
    | error e =>
      cases done
      exact .inl ⟨e, rfl, rfl⟩
    | ok pair =>
      obtain ⟨more, further, same⟩ := Option.map_eq_some_iff.mp done
      exact .inr ⟨pair.1, pair.2, more, rfl, further, same.symm⟩

variable {json : JsonC α} {files : List UInt8 → Option (List UInt8)} {outer out : List UInt8}
  {body : Body} {e : Expl α} {layout : Layout}

/-- The document behind a part with a result. -/
def documentOf (e : Expl α) (out : List UInt8)
    (result : Except MustachError (List UInt8 × Layout)) :
    Except MustachError (Doc (Expl α)) :=
  result.map fun more => ⟨e, more.2, out ++ more.1⟩

theorem documentOf_map {first : List UInt8} {more : Except MustachError (List UInt8 × Layout)} :
    documentOf e out (more.map (·.map (first ++ ·) id)) = documentOf e (out ++ first) more := by
  cases more with
  | error e => rfl
  | ok pair => simp only [documentOf, Except.map, Prod.map, List.append_assoc, id]

theorem documentOf_andThen {pair : List UInt8 × Layout} {second : Layout → Rendering}
    {result : Except MustachError (List UInt8 × Layout)}
    (rendered : Rendering.andThen (some (.ok pair)) second = some result) :
    ∃ more, second pair.2 = some more ∧
      documentOf e out result = documentOf e (out ++ pair.1) more := by
  obtain ⟨more, further, rfl⟩ := Option.map_eq_some_iff.mp rendered
  exact ⟨more, further, documentOf_map⟩

theorem Expl.enter_sectionObjs {name : List UInt8} :
    (∃ error, sectionObjs json e.objs name = .error error ∧ e.enter json name = .error error) ∨
      (sectionObjs json e.objs name = .ok [] ∧ e.enter json name = .ok (false, e)) ∨
      ∃ obj more cont, sectionObjs json e.objs name = .ok (obj :: more) ∧
        cont.drop 1 = more ∧
        e.enter json name = .ok (true, e.push ⟨cont, obj, 0, 1 + more.length⟩) := by
  have depth : e.objs.length = e.below.length + 1 := by simp [Expl.objs]
  rw [sectionObjs, Expl.enter]
  cases select json e.objs name with
  | none => exact .inr (.inl ⟨rfl, rfl⟩)
  | some o =>
    dsimp only
    by_cases deep : e.below.length + 1 ≥ mustachMaxDepth
    · rw [if_pos (depth ▸ deep), if_pos deep]
      exact .inl ⟨_, rfl, rfl⟩
    · rw [if_neg (depth ▸ deep), if_neg deep, instances]
      by_cases array : json.getType o = .array
      · rw [if_pos array, if_pos array]
        cases items : json.items o with
        | nil => exact .inr (.inl ⟨rfl, rfl⟩)
        | cons obj more =>
          refine .inr (.inr ⟨obj, more, obj :: more, rfl, rfl, ?_⟩)
          dsimp only
          rw [List.length_cons, Nat.add_comm]
      · rw [if_neg array, if_neg array]
        split
        · exact .inr (.inr ⟨o, [], [], rfl, rfl, rfl⟩)
        · exact .inr (.inl ⟨rfl, rfl⟩)

/-- The rounds of a section, for the elements from some index on. -/
theorem loop_eval
    (inner : ∀ (e : Expl α) (layout : Layout) (out : List UInt8)
      {result : Except MustachError (List UInt8 × Layout)},
      body.render json outer e.objs layout = some result →
      Eval (mustachJsonCItf json files) noExtensions outer (.body body) (.ok ⟨e, layout, out⟩)
        (documentOf e out result))
    {cont : List α} {obj : α} {index : Nat} {more : List α}
    (elements : cont.drop (index + 1) = more)
    {result : Except MustachError (List UInt8 × Layout)}
    (each : Rendering.each (fun o => body.render json outer (o :: e.objs)) (obj :: more) layout =
      some result) :
    Eval (mustachJsonCItf json files) noExtensions outer (.loop body)
      (.ok ⟨e.push ⟨cont, obj, index, index + 1 + more.length⟩, layout, out⟩)
      (documentOf e out result) := by
  induction more generalizing obj index layout out result with
  | nil =>
    have inner {result} := @inner (e.push ⟨cont, obj, index, index + 1⟩) layout out result
    rcases Rendering.andThen_cases each with
      ⟨error, one, rfl⟩ | ⟨first, layout', rest, one, two, rfl⟩
    · exact .stopped (inner one)
    · cases two
      rw [documentOf_map, documentOf, Except.map]
      dsimp only
      rw [List.append_nil]
      have last : (e.push ⟨cont, obj, index, index + 1⟩).next json =
          .ok (false, e.push ⟨cont, obj, index + 1, index + 1⟩) := by
        simp [Expl.next, Expl.push]
      exact .last (inner one) last
  | cons obj' more ih =>
    have inner {result} :=
      @inner (e.push ⟨cont, obj, index, index + 1 + (obj' :: more).length⟩) layout out result
    rcases Rendering.andThen_cases each with
      ⟨error, one, rfl⟩ | ⟨first, layout', rest, one, two, rfl⟩
    · exact .stopped (inner one)
    · rw [documentOf_map]
      have obj'_eq : cont.getD (index + 1) json.null = obj' := by
        rw [List.getD_eq_getElem?_getD, ← Nat.add_zero (index + 1), ← List.getElem?_drop, elements]
        rfl
      have rest_eq : cont.drop (index + 1 + 1) = more := by
        rw [← List.drop_drop, elements]
        rfl
      have next : (e.push ⟨cont, obj, index, index + 1 + (obj' :: more).length⟩).next json =
          .ok (true, e.push ⟨cont, obj', index + 1, index + 1 + 1 + more.length⟩) := by
        have count : index + 1 + (obj' :: more).length = index + 1 + 1 + more.length := by
          rw [List.length_cons]
          omega
        rw [count]
        simp [Expl.next, Expl.push, ← obj'_eq]
        omega
      exact .again (inner one) next (ih rest_eq two)

/-- A section whose text is not shown. -/
theorem skipped_eval {text name : List UInt8} {inverted : Bool} {rest : Body} {closure : Expl α}
    {result : Except MustachError (List UInt8 × Layout)}
    (enter : e.enter json name = .ok (inverted, closure))
    (back : (if inverted then closure.leave else closure) = e)
    (ihRest : ∀ {e : Expl α} {layout : Layout} {out : List UInt8}
      {result : Except MustachError (List UInt8 × Layout)},
      rest.render json outer e.objs layout = some result →
      Eval (mustachJsonCItf json files) noExtensions outer (.body rest) (.ok ⟨e, layout, out⟩)
        (documentOf e out result))
    (rendered : Rendering.andThen
      ((body.skip (textTag outer true true layout text).2).map (·.map ([], ·)))
      (rest.render json outer e.objs) = some result) :
    Eval (mustachJsonCItf json files) noExtensions outer
      (.body (.nested text inverted name body rest)) (.ok ⟨e, layout, out⟩)
      (documentOf e (out ++ (textTag outer true true layout text).1) result) := by
  rcases Rendering.andThen_cases rendered with
    ⟨error, one, rfl⟩ | ⟨first, layout', last, one, two, rfl⟩
  · obtain ⟨skipped, skip, is_error⟩ := Option.map_eq_some_iff.mp one
    cases skipped with
    | error =>
      cases is_error
      exact .skipped enter skip .failed
    | ok => cases is_error
  · obtain ⟨skipped, skip, is_ok⟩ := Option.map_eq_some_iff.mp one
    cases skipped with
    | error => cases is_ok
    | ok =>
      cases is_ok
      rw [documentOf_map, List.append_nil]
      refine .skipped enter skip ?_
      rw [show (if inverted then (mustachJsonCItf json files).leave closure else closure) = e
        from back]
      exact ihRest two

/-- The callbacks give a tree its meaning. -/
theorem render_eval {result : Except MustachError (List UInt8 × Layout)}
    (rendered : body.render json outer e.objs layout = some result) :
    Eval (mustachJsonCItf json files) noExtensions outer (.body body) (.ok ⟨e, layout, out⟩)
      (documentOf e out result) := by
  induction body generalizing e layout out result with
  | finish text =>
    cases rendered
    exact .finish
  | close text =>
    cases rendered
    exact .close
  | fail error =>
    cases rendered
    exact .fail
  | unknown => cases rendered
  | partials => cases rendered
  | comment text rest ih =>
    obtain ⟨more, further, same⟩ := documentOf_andThen (e := e) rendered
    rw [same]
    exact .comment (ih further)
  | replacement text name escape rest ih =>
    obtain ⟨more, further, same⟩ := documentOf_andThen (e := e) rendered
    obtain ⟨last, written, again⟩ := documentOf_andThen further
    rw [same, again]
    exact .replacement (ih written)
  | nested text inverted name body rest ihBody ihRest =>
    obtain ⟨more, further, same⟩ := documentOf_andThen (e := e) rendered
    rw [same]
    rcases Expl.enter_sectionObjs (e := e) with
      ⟨error, objs, enter⟩ | ⟨objs, enter⟩ | ⟨obj, others, cont, objs, elements, enter⟩
    · rw [objs] at further
      cases further
      exact .notEntered enter
    · rw [objs] at further
      cases inverted with
      | true =>
        rcases Rendering.andThen_cases further with
          ⟨error, one, rfl⟩ | ⟨first, layout', last, one, two, rfl⟩
        · exact .absent enter (ihBody one) .failed
        · rw [documentOf_map]
          exact .absent enter (ihBody one) (ihRest two)
      | false => exact skipped_eval enter rfl ihRest further
    · rw [objs] at further
      cases inverted with
      | true => exact skipped_eval enter rfl ihRest further
      | false =>
        have loop {result} := @loop_eval _ _ _ _
          (out ++ (textTag outer true true layout text).1) _ e
          (textTag outer true true layout text).2 (fun _ _ _ _ => ihBody) _ obj _ _ elements result
        rw [Nat.zero_add] at loop
        rcases Rendering.andThen_cases further with
          ⟨error, one, rfl⟩ | ⟨first, layout', last, one, two, rfl⟩
        · exact .entered enter (loop one) .failed
        · rw [documentOf_map]
          exact .entered enter (loop one) (ihRest two)

/-! ### Templates without partials -/

/-- No partials, and no tag that changes the delimiters. -/
def Body.plain : Body → Bool
  | .finish _ | .close _ | .fail _ => true
  | .unknown | .partials _ _ _ => false
  | .comment _ rest | .replacement _ _ _ rest => rest.plain
  | .nested _ _ _ body rest => body.plain && rest.plain

theorem Rendering.andThen_isSome {first : Rendering} {second : Layout → Rendering}
    (one : first.isSome) (two : ∀ layout, (second layout).isSome) :
    (first.andThen second).isSome := by
  obtain ⟨first, rfl⟩ := Option.isSome_iff_exists.mp one
  cases first with
  | error e => rfl
  | ok pair => simpa [andThen] using two pair.2

theorem Rendering.each_isSome {β : Type} {part : β → Layout → Rendering} {bs : List β}
    (parts : ∀ b layout, (part b layout).isSome) : (each part bs layout).isSome := by
  induction bs generalizing layout with
  | nil => rfl
  | cons b bs ih => exact andThen_isSome (parts b layout) fun _ => ih

theorem skip_isSome (plain : body.plain) : (body.skip layout).isSome := by
  induction body generalizing layout with
  | finish => rfl
  | close => rfl
  | fail => rfl
  | unknown => cases plain
  | partials => cases plain
  | comment text rest ih => exact ih plain
  | replacement text name escape rest ih => exact ih plain
  | nested text inverted name body rest ihBody ihRest =>
    rw [Body.plain, Bool.and_eq_true] at plain
    obtain ⟨skipped, skip⟩ := Option.isSome_iff_exists.mp
      (ihBody plain.1)
    rw [Body.skip, skip]
    cases skipped with
    | error e => rfl
    | ok layout => exact ihRest plain.2

/-- A template without partials has a meaning for all values. -/
theorem render_isSome {contexts : List α} (plain : body.plain) :
    (body.render json outer contexts layout).isSome := by
  induction body generalizing contexts layout with
  | finish => rfl
  | close => rfl
  | fail => rfl
  | unknown => cases plain
  | partials => cases plain
  | comment text rest ih => exact Rendering.andThen_isSome rfl fun _ => ih plain
  | replacement text name escape rest ih =>
    exact Rendering.andThen_isSome rfl fun _ => Rendering.andThen_isSome rfl fun _ => ih plain
  | nested text inverted name body rest ihBody ihRest =>
    rw [Body.plain, Bool.and_eq_true] at plain
    refine Rendering.andThen_isSome rfl fun layout => ?_
    split
    · rfl
    · refine Rendering.andThen_isSome ?_ fun _ => ihRest plain.2
      split
      · split
        · exact ihBody plain.1
        · exact Rendering.each_isSome fun _ _ => ihBody plain.1
      · rw [Option.isSome_map]
        exact skip_isSome plain.1

/-- The engine returns the meaning of a template. -/
theorem mustachJsonCMem_returns (files : List UInt8 → Option (List UInt8))
    {template : List UInt8} {root : α} {result : Except MustachError (List UInt8 × Layout)}
    (rendered : (Body.ofTemplate noExtensions template).render json [] [root] ⟨.blank, []⟩ =
      some result) :
    ∃ fuel, mustachJsonCMem json files fuel template root = some (result.map Prod.fst) := by
  have eval : Eval (mustachJsonCItf json files) noExtensions []
      (.body (Body.ofTemplate noExtensions template)) (.ok ⟨.start root, ⟨.blank, []⟩, []⟩)
      (documentOf (.start root) [] result) := render_eval rendered
  obtain ⟨fuel, returns⟩ := process_returns_tree _ _ _ _ _ eval
  refine ⟨fuel, ?_⟩
  rw [mustachJsonCMem, returns]
  cases result <;> rfl

/-- For a template without partials and all values, the engine returns, and with its meaning. -/
theorem mustachJsonCMem_renders (json : JsonC α) (files : List UInt8 → Option (List UInt8))
    (template : List UInt8) (root : α) (plain : (Body.ofTemplate noExtensions template).plain) :
    ∃ result fuel,
      (Body.ofTemplate noExtensions template).render json [] [root] ⟨.blank, []⟩ = some result ∧
      mustachJsonCMem json files fuel template root = some (result.map Prod.fst) := by
  obtain ⟨result, rendered⟩ := Option.isSome_iff_exists.mp
    (render_isSome plain)
  obtain ⟨fuel, returns⟩ := mustachJsonCMem_returns files rendered
  exact ⟨result, fuel, rendered, returns⟩

/-- The value `<` in parentheses. -/
theorem mustachJsonCMem_renders_parenthesized :
    ∃ result fuel,
      (Body.ofTemplate noExtensions parenthesized).render stringValues [] [[60]] ⟨.blank, []⟩ =
        some result ∧
      mustachJsonCMem stringValues (fun _ => none) fuel parenthesized [60] =
        some (result.map Prod.fst) :=
  mustachJsonCMem_renders stringValues (fun _ => none) parenthesized [60] (by decide)

/-! ### Templates without errors -/

/-- A plain template without an error in a tag. -/
def Body.clean : Body → Bool
  | .finish _ => true
  | .close _ => true
  | .fail _ => false
  | .unknown => false
  | .comment _ rest => rest.clean
  | .replacement _ _ _ rest => rest.clean
  | .partials _ _ _ => false
  | .nested _ _ _ body rest => body.clean && rest.clean

/-- How deep the sections are nested. -/
def Body.nesting : Body → Nat
  | .finish _ => 0
  | .close _ => 0
  | .fail _ => 0
  | .unknown => 0
  | .comment _ rest => rest.nesting
  | .replacement _ _ _ rest => rest.nesting
  | .partials _ _ rest => rest.nesting
  | .nested _ _ _ body rest => max (body.nesting + 1) rest.nesting

theorem Rendering.andThen_ok {first : Rendering} {second : Layout → Rendering}
    (one : ∃ pair, first = some (.ok pair))
    (two : ∀ layout, ∃ pair, second layout = some (.ok pair)) :
    ∃ pair, first.andThen second = some (.ok pair) := by
  obtain ⟨⟨out, layout⟩, rfl⟩ := one
  obtain ⟨⟨more, last⟩, further⟩ := two layout
  refine ⟨(out ++ more, last), ?_⟩
  rw [andThen, further]
  rfl

theorem Rendering.each_ok {β : Type} {part : β → Layout → Rendering} {bs : List β}
    (parts : ∀ b layout, ∃ pair, part b layout = some (.ok pair)) :
    ∃ pair, each part bs layout = some (.ok pair) := by
  induction bs generalizing layout with
  | nil => exact ⟨_, rfl⟩
  | cons b bs ih => exact andThen_ok (parts b layout) fun _ => ih

theorem skip_ok (clean : body.clean) : ∃ behind, body.skip layout = some (.ok behind) := by
  induction body generalizing layout with
  | finish => exact ⟨_, rfl⟩
  | close => exact ⟨_, rfl⟩
  | fail => cases clean
  | unknown => cases clean
  | partials => cases clean
  | comment text rest ih => exact ih clean
  | replacement text name escape rest ih => exact ih clean
  | nested text inverted name body rest ihBody ihRest =>
    rw [Body.clean, Bool.and_eq_true] at clean
    obtain ⟨between, skip⟩ := ihBody clean.1
    obtain ⟨behind, further⟩ := ihRest clean.2
    refine ⟨behind, ?_⟩
    rw [Body.skip, skip]
    exact further

/-- Without errors in its tags, a template fails for no values that it does not nest too deep. -/
theorem render_ok {contexts : List α} (clean : body.clean)
    (shallow : contexts.length + body.nesting ≤ mustachMaxDepth) :
    ∃ pair, body.render json outer contexts layout = some (.ok pair) := by
  induction body generalizing contexts layout with
  | finish => exact ⟨_, rfl⟩
  | close => exact ⟨_, rfl⟩
  | fail => cases clean
  | unknown => cases clean
  | partials => cases clean
  | comment text rest ih => exact Rendering.andThen_ok ⟨_, rfl⟩ fun _ => ih clean shallow
  | replacement text name escape rest ih =>
    exact Rendering.andThen_ok ⟨_, rfl⟩ fun _ => Rendering.andThen_ok ⟨_, rfl⟩ fun _ =>
      ih clean shallow
  | nested text inverted name body rest ihBody ihRest =>
    rw [Body.clean, Bool.and_eq_true] at clean
    rw [Body.nesting] at shallow
    obtain ⟨objs, found⟩ : ∃ objs, sectionObjs json contexts name = .ok objs := by
      rw [sectionObjs]
      split
      · exact ⟨_, rfl⟩
      · rw [if_neg (by omega)]
        exact ⟨_, rfl⟩
    refine Rendering.andThen_ok ⟨_, rfl⟩ fun layout => ?_
    rw [found]
    refine Rendering.andThen_ok ?_ fun _ => ihRest clean.2 (by omega)
    split
    · split
      · exact ihBody clean.1 (by omega)
      · exact Rendering.each_ok fun o _ => ihBody clean.1 (by rw [List.length_cons]; omega)
    · obtain ⟨behind, skip⟩ := skip_ok clean.1
      exact ⟨([], behind), by rw [skip]; rfl⟩

/-- A template without errors gives a document for all values, if its sections fit. -/
theorem mustachJsonCMem_succeeds (json : JsonC α) (files : List UInt8 → Option (List UInt8))
    (template : List UInt8) (root : α) (clean : (Body.ofTemplate noExtensions template).clean)
    (shallow : (Body.ofTemplate noExtensions template).nesting < mustachMaxDepth) :
    ∃ fuel document, mustachJsonCMem json files fuel template root = some (.ok document) := by
  have all_rendered : ∃ result, (Body.ofTemplate noExtensions template).render json [] [root]
      ⟨.blank, []⟩ = some (.ok result) :=
    render_ok clean (by simp only [List.length_singleton]; omega)
  obtain ⟨result, rendered⟩ := all_rendered
  obtain ⟨fuel, returns⟩ := mustachJsonCMem_returns files rendered
  exact ⟨fuel, result.1, returns⟩

theorem mustachJsonCMem_succeeds_parenthesized :
    ∃ fuel document,
      mustachJsonCMem stringValues (fun _ => none) fuel parenthesized [60] = some (.ok document) :=
  mustachJsonCMem_succeeds stringValues (fun _ => none) parenthesized [60] (by decide) (by decide)

end Guardwatch.Mustach
