import Guardwatch.Mustach.Render

/-! Values that are escaped bring no markup into a document. -/

namespace Guardwatch.Mustach

open CInput

/-- `<`, `>` and `"`. -/
def markup : List UInt8 := [60, 62, 34]

/-- Every value is escaped. -/
def Body.escapes : Body → Bool
  | .finish _ => true
  | .close _ => true
  | .fail _ => true
  | .unknown => true
  | .comment _ rest => rest.escapes
  | .replacement _ _ escape rest => escape && rest.escapes
  | .partials _ _ rest => rest.escapes
  | .nested _ _ _ body rest => body.escapes && rest.escapes

/-- The texts of a template around its tags. -/
def Body.texts : Body → List (List UInt8)
  | .finish text => [text]
  | .close text => [text]
  | .fail _ => []
  | .unknown => []
  | .comment text rest => text :: rest.texts
  | .replacement text _ _ rest => text :: rest.texts
  | .partials text _ rest => text :: rest.texts
  | .nested text _ _ body rest => text :: (body.texts ++ rest.texts)

theorem escapeByte_markup : ∀ c ∈ markup, ∀ d : UInt8, c ∉ escapeByte d := by
  intro c member d
  simp only [markup, List.mem_cons, List.not_mem_nil, or_false] at member
  rw [escapeByte]
  split_ifs <;> rcases member with rfl | rfl | rfl <;> simp_all [eq_comm]

theorem emit_markup {c : UInt8} (member : c ∈ markup) (buffer : List UInt8) :
    c ∉ emit buffer true := by
  rw [emit, if_pos rfl, List.mem_flatMap]
  rintro ⟨d, -, inside⟩
  exact escapeByte_markup c member d inside

variable {α : Type} {json : JsonC α} {body : Body} {layout : Layout} {text line outer : List UInt8}
  {contexts : List α} {c : UInt8} {enabled alone : Bool}

/-! ### Bytes that are in no text -/

theorem show_without (enabled : Bool) (clean : c ∉ layout.pref) (noOuter : c ∉ outer) :
    c ∉ (layout.show outer enabled).1 ∧ c ∉ (layout.show outer enabled).2.pref := by
  rw [Layout.show]
  split <;> simp [clean, noOuter]

theorem endLine_without {ending : List UInt8} (clean : c ∉ layout.pref) (noOuter : c ∉ outer)
    (noLine : c ∉ line) (noEnding : c ∉ ending) : c ∉ layout.endLine outer enabled line ending := by
  rw [Layout.endLine]
  split_ifs <;> simp [*]

theorem writeText_without (clean : c ∉ layout.pref) (noOuter : c ∉ outer) (noLine : c ∉ line)
    (noText : c ∉ text) :
    c ∉ (writeText outer enabled layout line text).1 ∧
      c ∉ (writeText outer enabled layout line text).2.1.pref ∧
      c ∉ (writeText outer enabled layout line text).2.2 := by
  induction text generalizing layout line with
  | nil => exact ⟨List.not_mem_nil, clean, noLine⟩
  | cons d text ih =>
    rw [List.mem_cons, not_or] at noText
    have noLine' : c ∉ line ++ [d] := by simp [noLine, noText.1]
    rw [writeText]
    split
    · rename_i ends
      obtain ⟨out, rest⟩ := @ih ⟨.blank, []⟩ [] List.not_mem_nil
        List.not_mem_nil noText.2
      refine ⟨?_, rest⟩
      have ended : c ∉ layout.endLine outer enabled line [Bytes.newline] :=
        endLine_without clean noOuter noLine (by simp [← ends, noText.1])
      simp only [Prod.map, List.mem_append, not_or]
      exact ⟨ended, out⟩
    · split
      · exact ih clean noLine' noText.2
      · have shown := show_without enabled clean noOuter
        obtain ⟨out, rest⟩ := @ih ⟨.text, (layout.show outer enabled).2.pref⟩ _
          shown.2 noLine' noText.2
        refine ⟨?_, rest⟩
        simp only [Prod.map, List.mem_append, not_or]
        exact ⟨shown.1, out⟩

theorem reachTag_without (noOuter : c ∉ outer) (noLine : c ∉ line) :
    c ∉ (reachTag outer enabled alone layout line).1 ∧
      c ∉ (reachTag outer enabled alone layout line).2.pref := by
  simp only [reachTag]
  split_ifs <;> simp [*]

theorem textTag_without (clean : c ∉ layout.pref) (noOuter : c ∉ outer) (noText : c ∉ text) :
    c ∉ (textTag outer enabled alone layout text).1 ∧
      c ∉ (textTag outer enabled alone layout text).2.pref := by
  obtain ⟨out, pref, last⟩ := writeText_without clean noOuter
    List.not_mem_nil noText
  have shown := show_without enabled pref noOuter
  simp only [textTag, List.mem_append, not_or]
  exact ⟨⟨out, shown.1, (reachTag_without noOuter last).1⟩, (reachTag_without noOuter last).2⟩

theorem textEnd_without (clean : c ∉ layout.pref) (noOuter : c ∉ outer) (noText : c ∉ text) :
    c ∉ textEnd outer layout text := by
  obtain ⟨out, pref, last⟩ := writeText_without clean noOuter
    List.not_mem_nil noText
  simp only [textEnd, List.mem_append, not_or]
  exact ⟨out, endLine_without pref noOuter last List.not_mem_nil⟩

/-! ### Documents -/

/-- A result without the byte, that leaves no prefix with it. -/
def Rendering.Without (c : UInt8) (rendering : Rendering) : Prop :=
  ∀ out layout, rendering = some (.ok (out, layout)) → c ∉ out ∧ c ∉ layout.pref

theorem without_andThen {first : Rendering} {second : Layout → Rendering} (one : first.Without c)
    (two : ∀ layout : Layout, c ∉ layout.pref → (second layout).Without c) :
    (first.andThen second).Without c := by
  intro out layout done
  rcases Rendering.andThen_cases done with
    ⟨e, -, is_error⟩ | ⟨before, between, more, is_first, further, same⟩
  · cases is_error
  · obtain ⟨clean, pref⟩ := one before between is_first
    cases more with
    | error e => cases same
    | ok pair =>
      cases same
      obtain ⟨rest, last⟩ := two between pref _ _ further
      exact ⟨by simp [clean, rest], last⟩

theorem without_each {β : Type} {part : β → Layout → Rendering}
    (parts : ∀ b layout, c ∉ Layout.pref layout → (part b layout).Without c) (bs : List β)
    (clean : c ∉ layout.pref) : (Rendering.each part bs layout).Without c := by
  induction bs generalizing layout with
  | nil =>
    intro out layout done
    cases done
    exact ⟨List.not_mem_nil, clean⟩
  | cons b bs ih => exact without_andThen (parts b layout clean) fun _ clean => ih clean

theorem skip_without (clean : c ∉ layout.pref) (noTexts : ∀ text ∈ body.texts, c ∉ text)
    {behind : Layout} (skip : body.skip layout = some (.ok behind)) : c ∉ behind.pref := by
  induction body generalizing layout behind with
  | finish text =>
    cases skip
    exact clean
  | close text =>
    cases skip
    exact (textTag_without clean List.not_mem_nil (noTexts text List.mem_cons_self)).2
  | fail e => cases skip
  | unknown => cases skip
  | comment text rest ih =>
    rw [Body.texts, List.forall_mem_cons] at noTexts
    exact ih (textTag_without clean List.not_mem_nil noTexts.1).2 noTexts.2 skip
  | replacement text name escape rest ih =>
    rw [Body.texts, List.forall_mem_cons] at noTexts
    exact ih (textTag_without clean List.not_mem_nil noTexts.1).2 noTexts.2 skip
  | partials text name rest ih =>
    rw [Body.texts, List.forall_mem_cons] at noTexts
    exact ih (textTag_without clean List.not_mem_nil noTexts.1).2 noTexts.2 skip
  | nested text inverted name body rest ihBody ihRest =>
    rw [Body.texts, List.forall_mem_cons, List.forall_mem_append] at noTexts
    rw [Body.skip] at skip
    have reached : c ∉ (textTag [] false true layout text).2.pref :=
      (textTag_without clean List.not_mem_nil noTexts.1).2
    split at skip
    · rename_i between inner
      exact ihRest (ihBody reached noTexts.2.1 inner) noTexts.2.2 skip
    · rename_i other
      exact absurd skip (other behind)

theorem without_textTag (clean : c ∉ layout.pref) (noOuter : c ∉ outer) (noText : c ∉ text) :
    Rendering.Without c (some (.ok (textTag outer true alone layout text))) := by
  intro out layout done
  cases done
  exact textTag_without clean noOuter noText

/-- A byte of markup in the output of a template that escapes is one of the template's texts. -/
theorem render_without (isMarkup : c ∈ markup) (escapes : body.escapes) (clean : c ∉ layout.pref)
    (noOuter : c ∉ outer) (noTexts : ∀ text ∈ body.texts, c ∉ text) :
    (body.render json outer contexts layout).Without c := by
  induction body generalizing contexts layout with
  | finish text =>
    intro out behind done
    cases done
    exact ⟨textEnd_without clean noOuter (noTexts text List.mem_cons_self), clean⟩
  | close text => exact without_textTag clean noOuter (noTexts text List.mem_cons_self)
  | fail e =>
    intro out behind done
    cases done
  | unknown =>
    intro out behind done
    cases done
  | partials text name rest ih =>
    intro out behind done
    cases done
  | comment text rest ih =>
    rw [Body.texts, List.forall_mem_cons] at noTexts
    exact without_andThen (without_textTag clean noOuter noTexts.1) fun _ clean =>
      ih escapes clean noTexts.2
  | replacement text name escape rest ih =>
    rw [Body.escapes, Bool.and_eq_true] at escapes
    rw [Body.texts, List.forall_mem_cons] at noTexts
    refine without_andThen (without_textTag clean noOuter noTexts.1) fun between clean => ?_
    refine without_andThen ?_ fun _ clean => ih escapes.2 clean noTexts.2
    intro out behind done
    cases done
    rw [escapes.1]
    exact ⟨emit_markup isMarkup _, clean⟩
  | nested text inverted name body rest ihBody ihRest =>
    rw [Body.escapes, Bool.and_eq_true] at escapes
    rw [Body.texts, List.forall_mem_cons, List.forall_mem_append] at noTexts
    refine without_andThen (without_textTag clean noOuter noTexts.1) fun between clean => ?_
    cases sectionObjs json contexts name with
    | error e =>
      intro out behind done
      cases done
    | ok objs =>
      refine without_andThen ?_ fun _ clean => ihRest escapes.2 clean noTexts.2.2
      split
      · split
        · exact ihBody escapes.1 clean noTexts.2.1
        · exact without_each (fun _ _ clean => ihBody escapes.1 clean noTexts.2.1) objs clean
      · intro out behind done
        obtain ⟨skipped, skip, same⟩ := Option.map_eq_some_iff.mp done
        cases skipped with
        | error e => cases same
        | ok behind =>
          cases same
          exact ⟨List.not_mem_nil, skip_without clean noTexts.2.1 skip⟩

/-- Where a template without partials escapes its values, the markup in what the engine returns
is markup of the template. -/
theorem mustachJsonCMem_markup (json : JsonC α) (files : List UInt8 → Option (List UInt8))
    (template : List UInt8) (root : α) (plain : (Body.ofTemplate noExtensions template).plain)
    (escapes : (Body.ofTemplate noExtensions template).escapes) :
    ∃ fuel result, mustachJsonCMem json files fuel template root = some result ∧
      ∀ out, result = .ok out → ∀ c ∈ markup, c ∈ out →
        ∃ text ∈ (Body.ofTemplate noExtensions template).texts, c ∈ text := by
  obtain ⟨result, rendered⟩ := Option.isSome_iff_exists.mp
    (render_isSome plain)
  obtain ⟨fuel, returns⟩ := mustachJsonCMem_returns files rendered
  refine ⟨fuel, _, returns, ?_⟩
  intro out same c isMarkup inside
  cases result with
  | error e => cases same
  | ok pair =>
    cases same
    by_contra none
    push Not at none
    exact (render_without isMarkup escapes List.not_mem_nil List.not_mem_nil none
      pair.1 pair.2 rendered).1 inside

theorem mustachJsonCMem_markup_parenthesized :
    ∃ fuel result,
      mustachJsonCMem stringValues (fun _ => none) fuel parenthesized [60] = some result ∧
      ∀ out, result = .ok out → ∀ c ∈ markup, c ∈ out →
        ∃ text ∈ (Body.ofTemplate noExtensions parenthesized).texts, c ∈ text :=
  mustachJsonCMem_markup stringValues (fun _ => none) parenthesized [60] (by decide) (by decide)

end Guardwatch.Mustach
