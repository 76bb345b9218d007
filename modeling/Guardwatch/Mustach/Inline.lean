import Guardwatch.Mustach.Render

/-! Templates whose tags all have a text in front of them on their line: nothing is taken from
their texts, and no white space is added. -/

namespace Guardwatch.Mustach

open CInput

abbrev Expansion := Option (Except MustachError (List UInt8))

def Expansion.andThen (first second : Expansion) : Expansion :=
  match first with
  | some (.ok out) => second.map (·.map (out ++ ·))
  | result => result

def Expansion.all : List Expansion → Expansion
  | [] => some (.ok [])
  | first :: more => first.andThen (all more)

variable {α : Type}

/-- The output of a template without partials whose texts are written as they are. -/
def Body.expand (json : JsonC α) : Body → List α → Expansion
  | .finish text, _ => some (.ok text)
  | .close text, _ => some (.ok text)
  | .fail e, _ => some (.error e)
  | .unknown, _ => none
  | .partials _ _ _, _ => none
  | .comment text rest, contexts =>
    Expansion.andThen (some (.ok text)) (rest.expand json contexts)
  | .replacement text name escape rest, contexts =>
    Expansion.andThen (some (.ok text))
      (Expansion.andThen (some (.ok (emit ((getoptional json contexts name).getD []) escape)))
        (rest.expand json contexts))
  | .nested text inverted name body rest, contexts =>
    Expansion.andThen (some (.ok text))
      (match sectionObjs json contexts name with
      | .error e => some (.error e)
      | .ok objs =>
        Expansion.andThen
          (if inverted = objs.isEmpty then
            if inverted then body.expand json contexts
            else Expansion.all (objs.map fun o => body.expand json (o :: contexts))
          else (body.skip ⟨.text, []⟩).map (·.map fun _ => []))
          (rest.expand json contexts))

theorem all_ok {β : Type} (f : β → List UInt8) (bs : List β) :
    Expansion.all (bs.map fun b => some (.ok (f b))) = some (.ok (bs.flatMap f)) := by
  induction bs with
  | nil => rfl
  | cons b bs ih =>
    rw [List.map_cons, Expansion.all, ih]
    rfl

/-- There is a text behind the last newline, or on the only line and in front of it. -/
def inked (before : Bool) : List UInt8 → Bool
  | [] => before
  | c :: text => inked (if c = Bytes.newline then false else before || !isspace c) text

/-- Every tag has a text in front of it on its line. -/
def Body.inline : Bool → Body → Bool
  | _, .finish _ => true
  | _, .fail _ => true
  | _, .unknown => true
  | before, .close text => inked before text
  | before, .comment text rest => inked before text && rest.inline true
  | before, .replacement text _ _ rest => inked before text && rest.inline true
  | before, .partials text _ rest => inked before text && rest.inline true
  | before, .nested text _ _ body rest =>
    inked before text && body.inline true && rest.inline true

/-! ### Texts -/

/-- The layout without a prefix, behind a text or behind none. -/
def inlineLayout (before : Bool) : Layout := ⟨if before then .text else .blank, []⟩

variable {before enabled alone : Bool} {text line : List UInt8}

theorem show_inline : (inlineLayout before).show [] enabled = ([], inlineLayout before) := by
  cases before <;> rfl

theorem endLine_inline {ending : List UInt8} :
    (inlineLayout before).endLine [] true line ending = line ++ ending := by
  cases before <;> simp [Layout.endLine, inlineLayout]

/-- A text is written as it is, the beginning of its last line not yet. -/
theorem writeText_inline : ∃ out line',
    writeText [] true (inlineLayout before) line text =
      (out, inlineLayout (inked before text), line') ∧ out ++ line' = line ++ text := by
  induction text generalizing before line with
  | nil => exact ⟨[], line, rfl, (List.append_nil line).symm⟩
  | cons c text ih =>
    rw [writeText, inked]
    split
    · obtain ⟨out, line', written, same⟩ := ih
      refine ⟨line ++ [Bytes.newline] ++ out, line', ?_, ?_⟩
      · rw [show (⟨.blank, []⟩ : Layout) = inlineLayout false from rfl, written, endLine_inline]
        rfl
      · rename_i ends
        rw [List.append_assoc, same, ends]
        simp
    · split
      · rename_i space
        obtain ⟨out, line', written, same⟩ := ih
        refine ⟨out, line', ?_, ?_⟩
        · rw [written, space, Bool.not_true, Bool.or_false]
        · rw [same, List.append_assoc, List.singleton_append]
      · rename_i ink
        rw [Bool.not_eq_true] at ink
        obtain ⟨out, line', written, same⟩ := ih
        refine ⟨out, line', ?_, ?_⟩
        · rw [show_inline, ink, Bool.not_false, Bool.or_true]
          dsimp only
          rw [show (⟨.text, (inlineLayout before).pref⟩ : Layout) = inlineLayout true from rfl,
            written]
          rfl
        · rw [same, List.append_assoc, List.singleton_append]

theorem textTag_inline (ink : inked before text) :
    textTag [] true alone (inlineLayout before) text = (text, inlineLayout true) := by
  obtain ⟨out, line', written, same⟩ := writeText_inline
  rw [textTag, written, ink]
  simp only [show_inline, reachTag]
  simpa [inlineLayout] using same

theorem textEnd_inline : textEnd [] (inlineLayout before) text = text := by
  obtain ⟨out, line', written, same⟩ := writeText_inline
  rw [textEnd, written]
  dsimp only
  rw [endLine_inline, List.append_nil, same, List.nil_append]

theorem writeText_skip : (writeText [] false (inlineLayout before) line text).2.1 =
    inlineLayout (inked before text) := by
  induction text generalizing before line with
  | nil => rfl
  | cons c text ih =>
    rw [writeText, inked]
    split
    · exact @ih false _
    · split
      · rename_i space
        rw [space, Bool.not_true, Bool.or_false]
        exact ih
      · rename_i ink
        rw [Bool.not_eq_true] at ink
        rw [ink, Bool.not_false, Bool.or_true, show_inline]
        exact @ih true _

theorem textTag_skip (ink : inked before text) :
    (textTag [] false alone (inlineLayout before) text).2 = inlineLayout true := by
  simp only [textTag, show_disabled, reachTag, writeText_skip, ink]
  simp [inlineLayout]

/-! ### Templates -/

/-- The layout behind an inline part. -/
def Body.behind (before : Bool) : Body → Layout
  | .finish _ => inlineLayout before
  | _ => inlineLayout true

theorem behind_true (body : Body) : body.behind true = inlineLayout true := by
  cases body <;> rfl

/-- An output with the layout behind it. -/
def Expansion.laidOut (layout : Layout) (x : Expansion) : Rendering := x.map (·.map (·, layout))

theorem laidOut_andThen {x y : Expansion} {second : Layout → Rendering} {layout behind : Layout}
    (rest : second layout = y.laidOut behind) :
    (x.laidOut layout).andThen second = (x.andThen y).laidOut behind := by
  cases x with
  | none => rfl
  | some first =>
    cases first with
    | error e => rfl
    | ok out =>
      rw [show Rendering.andThen (Expansion.laidOut layout (some (.ok out))) second =
        (second layout).map (·.map (·.map (out ++ ·) id)) from rfl, rest]
      cases y with
      | none => rfl
      | some result => cases result <;> rfl

theorem laidOut_each {part : α → Layout → Rendering} {expand : α → Expansion} {layout : Layout}
    (parts : ∀ o, part o layout = (expand o).laidOut layout) (objs : List α) :
    Rendering.each part objs layout = (Expansion.all (objs.map expand)).laidOut layout := by
  induction objs with
  | nil => rfl
  | cons o objs ih =>
    rw [Rendering.each, parts, List.map_cons, Expansion.all]
    exact laidOut_andThen ih

theorem skip_layout {body : Body} {layout : Layout} (isInline : body.inline true)
    (skip : body.skip (inlineLayout true) = some (.ok layout)) : layout = inlineLayout true := by
  induction body generalizing layout with
  | finish text =>
    cases skip
    rfl
  | close text =>
    rw [Body.skip, textTag_skip isInline] at skip
    cases skip
    rfl
  | fail e => cases skip
  | unknown => cases skip
  | comment text rest ih =>
    rw [Body.inline, Bool.and_eq_true] at isInline
    rw [Body.skip, textTag_skip isInline.1] at skip
    exact ih isInline.2 skip
  | replacement text name escape rest ih =>
    rw [Body.inline, Bool.and_eq_true] at isInline
    rw [Body.skip, textTag_skip isInline.1] at skip
    exact ih isInline.2 skip
  | partials text name rest ih =>
    rw [Body.inline, Bool.and_eq_true] at isInline
    rw [Body.skip, textTag_skip isInline.1] at skip
    exact ih isInline.2 skip
  | nested text inverted name body rest ihBody ihRest =>
    rw [Body.inline, Bool.and_eq_true, Bool.and_eq_true] at isInline
    rw [Body.skip, textTag_skip isInline.1.1] at skip
    cases inner : body.skip (inlineLayout true) with
    | none =>
      rw [inner] at skip
      cases skip
    | some skipped =>
      rw [inner] at skip
      cases skipped with
      | error e => cases skip
      | ok between =>
        cases ihBody isInline.1.2 inner
        exact ihRest isInline.2 skip

theorem skip_inline {body : Body} (isInline : body.inline true) :
    (body.skip (inlineLayout true)).map (·.map ([], ·)) =
      Expansion.laidOut (inlineLayout true)
        ((body.skip (inlineLayout true)).map (·.map fun _ => [])) := by
  cases skip : body.skip (inlineLayout true) with
  | none => rfl
  | some skipped =>
    cases skipped with
    | error e => rfl
    | ok layout =>
      cases skip_layout isInline skip
      rfl

/-- The meaning of an inline template is its expansion. -/
theorem render_inline {json : JsonC α} {body : Body} {contexts : List α}
    (isInline : body.inline before) :
    body.render json [] contexts (inlineLayout before) =
      (body.expand json contexts).laidOut (body.behind before) := by
  induction body generalizing before contexts with
  | finish text =>
    rw [Body.render, textEnd_inline]
    rfl
  | close text =>
    rw [Body.render, textTag_inline isInline]
    rfl
  | fail e => rfl
  | unknown => rfl
  | partials => rfl
  | comment text rest ih =>
    rw [Body.inline, Bool.and_eq_true] at isInline
    rw [Body.render, textTag_inline isInline.1, Body.expand]
    apply laidOut_andThen (x := some (.ok text))
    rw [ih isInline.2, behind_true]
    rfl
  | replacement text name escape rest ih =>
    rw [Body.inline, Bool.and_eq_true] at isInline
    rw [Body.render, textTag_inline isInline.1, Body.expand]
    apply laidOut_andThen (x := some (.ok text))
    apply laidOut_andThen (x := some (.ok _))
    rw [ih isInline.2, behind_true]
    rfl
  | nested text inverted name body rest ihBody ihRest =>
    rw [Body.inline, Bool.and_eq_true, Bool.and_eq_true] at isInline
    rw [Body.render, textTag_inline isInline.1.1, Body.expand]
    apply laidOut_andThen (x := some (.ok text))
    cases sectionObjs json contexts name with
    | error e => rfl
    | ok objs =>
      have further : rest.render json [] contexts (inlineLayout true) =
          (rest.expand json contexts).laidOut (inlineLayout true) :=
        (ihRest isInline.2).trans (by rw [behind_true])
      have inner {contexts : List α} : body.render json [] contexts (inlineLayout true) =
          (body.expand json contexts).laidOut (inlineLayout true) :=
        (ihBody isInline.1.2).trans (by rw [behind_true])
      dsimp only
      split
      · split
        · rw [inner]
          exact laidOut_andThen further
        · rw [laidOut_each (fun o => inner)]
          exact laidOut_andThen further
      · rw [skip_inline isInline.1.2]
        exact laidOut_andThen further

/-- The engine returns what a template without lines of its own stands for. -/
theorem inline_returns (files : List UInt8 → Option (List UInt8)) {template : List UInt8}
    {root : α} (isInline : (Body.ofTemplate noExtensions template).inline false)
    (clean : (Body.ofTemplate noExtensions template).clean)
    (shallow : 1 + (Body.ofTemplate noExtensions template).nesting ≤ mustachMaxDepth) :
    ∃ fuel text, mustachJsonCMem json files fuel template root = some (.ok text) ∧
      (Body.ofTemplate noExtensions template).expand json [root] = some (.ok text) := by
  have all_rendered : ∃ result, (Body.ofTemplate noExtensions template).render json [] [root]
      (inlineLayout false) = some (.ok result) := render_ok clean shallow
  obtain ⟨result, rendered⟩ := all_rendered
  obtain ⟨fuel, returns⟩ := mustachJsonCMem_returns files rendered
  rw [render_inline isInline] at rendered
  obtain ⟨expanded, expand, laidOut⟩ := Option.map_eq_some_iff.mp rendered
  cases expanded with
  | error e => cases laidOut
  | ok text =>
    cases laidOut
    exact ⟨fuel, text, returns, expand⟩

end Guardwatch.Mustach
