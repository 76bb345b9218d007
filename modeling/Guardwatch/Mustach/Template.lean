import Guardwatch.Mustach.Process

/-! Templates as trees: what `process` does with a template whose delimiters are never changed,
without its stack and its jumps back. -/

namespace Guardwatch.Mustach

open CInput

/-- A template from some place on, to its end or to the end of the section around it. Every node
has the text in front of its tag. -/
inductive Body
  | finish (text : List UInt8)
  | close (text : List UInt8)
  | fail (e : MustachError)
  /-- Delimiters are changed, or the behaviour is not defined. -/
  | unknown
  | comment (text : List UInt8) (rest : Body)
  | replacement (text name : List UInt8) (escape : Bool) (rest : Body)
  | partials (text name : List UInt8) (rest : Body)
  | nested (text : List UInt8) (inverted : Bool) (name : List UInt8) (body rest : Body)
deriving DecidableEq

/-! ### Reading a template -/

/-- The tree of a template inside sections with the names `opened`, and the template behind the
end of the innermost one. -/
inductive Parses (flags : MustachFlags) :
    List (List UInt8) → List UInt8 → Body → List UInt8 → Prop
  | finish {text : List UInt8} : findDelimiter opening text = none →
      Parses flags [] text (.finish text) []
  | unclosed {name : List UInt8} {opened : List (List UInt8)} {text : List UInt8} :
      findDelimiter opening text = none →
      Parses flags (name :: opened) text (.fail .unexpectedEnd) []
  | undefined {opened : List (List UInt8)} {text front tag : List UInt8} :
      findDelimiter opening text = some (front, tag) → readTag flags closing tag = none →
      Parses flags opened text .unknown []
  | invalid {opened : List (List UInt8)} {text front tag : List UInt8} {e : MustachError} :
      findDelimiter opening text = some (front, tag) →
      readTag flags closing tag = some (.error e) → Parses flags opened text (.fail e) []
  | delimiters {opened : List (List UInt8)} {text front tag opstr clstr : List UInt8}
      {alone : Bool} {rest : List UInt8} :
      findDelimiter opening text = some (front, tag) →
      readTag flags closing tag = some (.ok ⟨.delimiters opstr clstr, alone, rest⟩) →
      Parses flags opened text .unknown []
  | comment {opened : List (List UInt8)} {text front tag rest left : List UInt8} {body : Body} :
      findDelimiter opening text = some (front, tag) →
      readTag flags closing tag = some (.ok ⟨.comment, true, rest⟩) →
      Parses flags opened rest body left →
      Parses flags opened text (.comment front body) left
  | replacement {opened : List (List UInt8)} {text front tag name rest left : List UInt8}
      {escape : Bool} {body : Body} :
      findDelimiter opening text = some (front, tag) →
      readTag flags closing tag = some (.ok ⟨.replacement name escape, false, rest⟩) →
      Parses flags opened rest body left →
      Parses flags opened text (.replacement front name escape body) left
  | partials {opened : List (List UInt8)} {text front tag name rest left : List UInt8}
      {body : Body} :
      findDelimiter opening text = some (front, tag) →
      readTag flags closing tag = some (.ok ⟨.partials name, true, rest⟩) →
      Parses flags opened rest body left →
      Parses flags opened text (.partials front name body) left
  | deep {opened : List (List UInt8)} {text front tag name rest : List UInt8}
      {inverted : Bool} :
      findDelimiter opening text = some (front, tag) →
      readTag flags closing tag = some (.ok ⟨.beginSection inverted name, true, rest⟩) →
      opened.length = mustachMaxDepth → Parses flags opened text (.fail .tooDeep) []
  | nested {opened : List (List UInt8)} {text front tag name rest between left : List UInt8}
      {inverted : Bool} {body after : Body} :
      findDelimiter opening text = some (front, tag) →
      readTag flags closing tag = some (.ok ⟨.beginSection inverted name, true, rest⟩) →
      opened.length ≠ mustachMaxDepth → Parses flags (name :: opened) rest body between →
      Parses flags opened between after left →
      Parses flags opened text (.nested front inverted name body after) left
  | close {opened : List (List UInt8)} {text front tag name rest : List UInt8} :
      findDelimiter opening text = some (front, tag) →
      readTag flags closing tag = some (.ok ⟨.endSection name, true, rest⟩) →
      Parses flags (name :: opened) text (.close front) rest
  | mismatch {opened : List (List UInt8)} {text front tag name rest : List UInt8} :
      findDelimiter opening text = some (front, tag) →
      readTag flags closing tag = some (.ok ⟨.endSection name, true, rest⟩) →
      opened.head? ≠ some name → Parses flags opened text (.fail .closing) []

/-- The reader of trees, for templates shorter than `fuel`. -/
def parse (flags : MustachFlags) : Nat → List (List UInt8) → List UInt8 → Body × List UInt8
  | 0, _, _ => (.unknown, [])
  | fuel + 1, opened, text =>
    match findDelimiter opening text with
    | none => (if opened.isEmpty then .finish text else .fail .unexpectedEnd, [])
    | some (front, tag) =>
      match readTag flags closing tag with
      | none => (.unknown, [])
      | some (.error e) => (.fail e, [])
      | some (.ok ⟨tag, _, rest⟩) =>
        match tag with
        | .comment => (parse flags fuel opened rest).map (.comment front) id
        | .delimiters _ _ => (.unknown, [])
        | .replacement name escape =>
          (parse flags fuel opened rest).map (.replacement front name escape) id
        | .partials name => (parse flags fuel opened rest).map (.partials front name) id
        | .beginSection inverted name =>
          if opened.length = mustachMaxDepth then (.fail .tooDeep, [])
          else
            let (body, between) := parse flags fuel (name :: opened) rest
            (parse flags fuel opened between).map (.nested front inverted name body) id
        | .endSection name =>
          if opened.head? = some name then (.close front, rest) else (.fail .closing, [])

/-- The tree of a whole template. -/
def Body.ofTemplate (flags : MustachFlags) (template : List UInt8) : Body :=
  (parse flags (template.length + 1) [] template).1

section Reading

variable {flags : MustachFlags} {clstr text front tag rest : List UInt8} {alone : Bool}

theorem findDelimiter_length (found : findDelimiter clstr text = some (front, rest)) :
    rest.length ≤ text.length ∧ (clstr ≠ [] → rest.length < text.length) := by
  induction text generalizing front with
  | nil => cases found
  | cons c text ih =>
    rw [findDelimiter] at found
    split at found
    · simp only [Option.some.injEq, Prod.mk.injEq] at found
      rw [← found.2]
      simp only [List.length_drop, List.length_cons, ne_eq]
      refine ⟨by omega, fun nonempty => ?_⟩
      have := List.length_pos_of_ne_nil nonempty
      omega
    · obtain ⟨⟨more, rest'⟩, further, same⟩ := Option.map_eq_some_iff.mp found
      simp only [Prod.mk.injEq] at same
      obtain ⟨-, rfl⟩ := same
      have := ih further
      simp only [List.length_cons]
      exact ⟨by omega, fun nonempty => by have := this.2 nonempty; omega⟩

theorem findDelimiter_rest_lt (found : findDelimiter opening text = some (front, rest)) :
    rest.length < text.length :=
  (findDelimiter_length found).2 (by decide)

/-- The tags whose text can stand alone on a line. -/
def Tag.standsAlone : Tag → Bool
  | .replacement _ _ => false
  | _ => true

theorem namedTag_ok {make : List UInt8 → Tag} {read : ReadTag}
    (named : namedTag flags make alone rest text = .ok read) :
    ∃ name, read = ⟨make name, alone, rest⟩ := by
  rw [namedTag] at named
  cases name : getName flags text with
  | error e =>
    rw [name] at named
    cases named
  | ok name' =>
    rw [name] at named
    cases named
    exact ⟨name', rfl⟩

theorem readUnescape_length {content : List UInt8} {read : List UInt8 × List UInt8}
    (unescaped : readUnescape clstr content rest = .ok read) : read.2.length ≤ rest.length := by
  unfold readUnescape at unescaped
  split at unescaped
  · split at unescaped
    · cases unescaped
    · split at unescaped
      · cases unescaped
        simp
      · cases unescaped
  · split at unescaped
    · cases unescaped
      exact Nat.le_refl _
    · cases unescaped

/-- What is read of a tag, of each kind. -/
theorem readTag_spec {read : ReadTag} (is_tag : readTag flags clstr tag = some (.ok read)) :
    read.alone = read.tag.standsAlone ∧ read.rest.length ≤ tag.length := by
  rw [readTag] at is_tag
  split at is_tag
  · cases is_tag
  · rename_i content rest found
    have shorter := (findDelimiter_length found).1
    have named {make : List UInt8 → Tag} {alone : Bool} {rest' : List UInt8}
        (text : Option (List UInt8))
        (is_tag : text.map (namedTag flags make alone rest') = some (.ok read))
        (kind : ∀ name, (make name).standsAlone = alone) (le : rest'.length ≤ tag.length) :
        read.alone = read.tag.standsAlone ∧ read.rest.length ≤ tag.length := by
      obtain ⟨text, -, is_tag⟩ := Option.map_eq_some_iff.mp is_tag
      obtain ⟨name, rfl⟩ := namedTag_ok is_tag
      exact ⟨(kind name).symm, le⟩
    split at is_tag
    · split at is_tag
      · exact named _ is_tag (fun _ => rfl) shorter
      · exact named (some content) is_tag (fun _ => rfl) shorter
    · cases is_tag
      exact ⟨rfl, shorter⟩
    · cases delimiters : readDelimiters content with
      | error e =>
        rw [delimiters] at is_tag
        cases is_tag
      | ok new =>
        rw [delimiters] at is_tag
        cases is_tag
        rw [readDelimiters] at delimiters
        dsimp only at delimiters
        repeat' split at delimiters
        all_goals cases delimiters
        exact ⟨rfl, shorter⟩
    · split at is_tag
      · cases is_tag
      · rename_i unescaped
        have := readUnescape_length unescaped
        exact named _ is_tag (fun _ => rfl) (by dsimp only at this; omega)
    · exact named _ is_tag (fun _ => rfl) shorter
    · exact named _ is_tag (fun _ => rfl) shorter
    · exact named _ is_tag (fun _ => rfl) shorter
    · exact named _ is_tag (fun _ => rfl) shorter
    · exact named _ is_tag (fun _ => rfl) shorter
    · exact named (some content) is_tag (fun _ => rfl) shorter

theorem parse_spec {fuel : Nat} {opened : List (List UInt8)} (enough : text.length < fuel) :
    Parses flags opened text (parse flags fuel opened text).1 (parse flags fuel opened text).2 ∧
      (parse flags fuel opened text).2.length ≤ text.length := by
  induction fuel generalizing opened text with
  | zero => exact absurd enough (Nat.not_lt_zero _)
  | succ fuel ih =>
    rw [parse]
    split
    · rename_i none
      refine ⟨?_, Nat.zero_le _⟩
      cases opened with
      | nil => exact .finish none
      | cons name opened => exact .unclosed none
    · rename_i front tag found
      have shorter := findDelimiter_rest_lt found
      split
      · exact ⟨.undefined found ‹_›, Nat.zero_le _⟩
      · exact ⟨.invalid found ‹_›, Nat.zero_le _⟩
      · rename_i tag' alone rest is_tag
        obtain ⟨same, le⟩ := readTag_spec is_tag
        dsimp only at same le
        subst same
        have further {opened : List (List UInt8)} := @ih rest opened (by omega)
        split
        · exact ⟨.comment found is_tag further.1, further.2.trans (by omega)⟩
        · exact ⟨.delimiters found is_tag, Nat.zero_le _⟩
        · exact ⟨.replacement found is_tag further.1, further.2.trans (by omega)⟩
        · exact ⟨.partials found is_tag further.1, further.2.trans (by omega)⟩
        · split
          · exact ⟨.deep found is_tag ‹_›, Nat.zero_le _⟩
          · rename_i inverted name fits
            obtain ⟨body, between⟩ := @further (name :: opened)
            have after := @ih (parse flags fuel (name :: opened) rest).2 opened (by omega)
            exact ⟨.nested found is_tag fits body after.1, after.2.trans (by omega)⟩
        · split
          · rename_i name ends
            obtain ⟨opened, rfl⟩ : ∃ more, opened = name :: more := by
              cases opened with
              | nil => cases ends
              | cons top more =>
                cases ends
                exact ⟨more, rfl⟩
            exact ⟨.close found is_tag, by dsimp only; omega⟩
          · exact ⟨.mismatch found is_tag ‹_›, Nat.zero_le _⟩

theorem parses_ofTemplate (template : List UInt8) :
    ∃ left, Parses flags [] template (.ofTemplate flags template) left :=
  ⟨_, (parse_spec (Nat.lt_succ_self _)).1⟩

end Reading

/-! ### What a tree does -/

/-- What a text writes: up to its last line, and the layout and the line at its end. -/
def writeText (outer : List UInt8) (enabled : Bool) (layout : Layout) (line : List UInt8) :
    List UInt8 → List UInt8 × Layout × List UInt8
  | [] => ([], layout, line)
  | c :: text =>
    if c = Bytes.newline then
      (writeText outer enabled ⟨.blank, []⟩ [] text).map
        (layout.endLine outer enabled line [Bytes.newline] ++ ·) id
    else if isspace c then writeText outer enabled layout (line ++ [c]) text
    else
      let (out, layout) := layout.show outer enabled
      (writeText outer enabled ⟨.text, layout.pref⟩ (line ++ [c]) text).map (out ++ ·) id

/-- The text in front of a tag, and the tag's delimiter. -/
def textTag (outer : List UInt8) (enabled alone : Bool) (layout : Layout) (text : List UInt8) :
    List UInt8 × Layout :=
  let (out, layout, line) := writeText outer enabled layout [] text
  let (more, layout) := layout.show outer enabled
  let (shown, layout) := reachTag outer enabled alone layout line
  (out ++ (more ++ shown), layout)

/-- The text at the end of the template. -/
def textEnd (outer : List UInt8) (layout : Layout) (text : List UInt8) : List UInt8 :=
  let (out, layout, line) := writeText outer true layout [] text
  out ++ layout.endLine outer true line []

/-- The layout behind a part of the template that is not shown. -/
def Body.skip : Body → Layout → Option (Except MustachError Layout)
  | .finish _, layout => some (.ok layout)
  | .close text, layout => some (.ok (textTag [] false true layout text).2)
  | .fail e, _ => some (.error e)
  | .unknown, _ => none
  | .comment text rest, layout => rest.skip (textTag [] false true layout text).2
  | .replacement text _ _ rest, layout => rest.skip (textTag [] false false layout text).2
  | .partials text _ rest, layout => rest.skip (textTag [] false true layout text).2
  | .nested text _ _ body rest, layout =>
    match body.skip (textTag [] false true layout text).2 with
    | some (.ok layout) => rest.skip layout
    | result => result

variable {σ : Type}

/-- The document behind the text in front of a tag. -/
def Doc.reach (outer : List UInt8) (enabled alone : Bool) (text : List UInt8) (doc : Doc σ) :
    Doc σ :=
  doc.write (textTag outer enabled alone doc.layout text).1
    (textTag outer enabled alone doc.layout text).2

def Doc.withClosure (doc : Doc σ) (closure : σ) : Doc σ := { doc with closure }

def Doc.withLayout (doc : Doc σ) (layout : Layout) : Doc σ := { doc with layout }

/-- The document behind a partial. -/
def Doc.resume (doc done : Doc σ) : Doc σ := { doc with closure := done.closure, out := done.out }

/-- A part of a template to evaluate: a tree, or a section that has been entered. -/
inductive Work
  | body (b : Body)
  | loop (b : Body)

/-- The meaning of trees: the document before and after, where a part that fails has no document
after it. -/
inductive Eval (itf : MustachItf σ) (flags : MustachFlags) : List UInt8 → Work →
    Except MustachError (Doc σ) → Except MustachError (Doc σ) → Prop
  | failed {outer : List UInt8} {work : Work} {e : MustachError} :
      Eval itf flags outer work (.error e) (.error e)
  | finish {outer text : List UInt8} {doc : Doc σ} :
      Eval itf flags outer (.body (.finish text)) (.ok doc)
        (.ok (doc.write (textEnd outer doc.layout text) doc.layout))
  | close {outer text : List UInt8} {doc : Doc σ} :
      Eval itf flags outer (.body (.close text)) (.ok doc) (.ok (doc.reach outer true true text))
  | fail {outer : List UInt8} {e : MustachError} {doc : Doc σ} :
      Eval itf flags outer (.body (.fail e)) (.ok doc) (.error e)
  | comment {outer text : List UInt8} {rest : Body} {doc : Doc σ}
      {result : Except MustachError (Doc σ)} :
      Eval itf flags outer (.body rest) (.ok (doc.reach outer true true text)) result →
      Eval itf flags outer (.body (.comment text rest)) (.ok doc) result
  | replacement {outer text name : List UInt8} {escape : Bool} {rest : Body} {doc : Doc σ}
      {result : Except MustachError (Doc σ)} :
      Eval itf flags outer (.body rest) ((doc.reach outer true false text).put itf name escape)
        result →
      Eval itf flags outer (.body (.replacement text name escape rest)) (.ok doc) result
  | noPartials {outer text name : List UInt8} {rest : Body} {doc : Doc σ} {e : MustachError} :
      itf.partials doc.closure name = .error e →
      Eval itf flags outer (.body (.partials text name rest)) (.ok doc) (.error e)
  | partials {outer text name template : List UInt8} {rest : Body} {doc : Doc σ} {closure : σ}
      {done result : Except MustachError (Doc σ)} :
      itf.partials doc.closure name = .ok (template, closure) →
      Eval itf flags (outer ++ (doc.reach outer true true text).layout.pref)
        (.body (.ofTemplate flags template))
        (.ok ⟨closure, ⟨.blank, []⟩, (doc.reach outer true true text).out⟩) done →
      Eval itf flags outer (.body rest) (done.map (doc.reach outer true true text).resume) result →
      Eval itf flags outer (.body (.partials text name rest)) (.ok doc) result
  | notEntered {outer text name : List UInt8} {inverted : Bool} {body rest : Body} {doc : Doc σ}
      {e : MustachError} :
      itf.enter doc.closure name = .error e →
      Eval itf flags outer (.body (.nested text inverted name body rest)) (.ok doc) (.error e)
  | entered {outer text name : List UInt8} {body rest : Body} {doc : Doc σ} {closure : σ}
      {done result : Except MustachError (Doc σ)} :
      itf.enter doc.closure name = .ok (true, closure) →
      Eval itf flags outer (.loop body) (.ok ((doc.reach outer true true text).withClosure closure))
        done →
      Eval itf flags outer (.body rest) done result →
      Eval itf flags outer (.body (.nested text false name body rest)) (.ok doc) result
  | absent {outer text name : List UInt8} {body rest : Body} {doc : Doc σ} {closure : σ}
      {done result : Except MustachError (Doc σ)} :
      itf.enter doc.closure name = .ok (false, closure) →
      Eval itf flags outer (.body body) (.ok ((doc.reach outer true true text).withClosure closure))
        done →
      Eval itf flags outer (.body rest) done result →
      Eval itf flags outer (.body (.nested text true name body rest)) (.ok doc) result
  | skipped {outer text name : List UInt8} {inverted : Bool} {body rest : Body} {doc : Doc σ}
      {closure : σ} {layout : Except MustachError Layout}
      {result : Except MustachError (Doc σ)} :
      itf.enter doc.closure name = .ok (inverted, closure) →
      body.skip (doc.reach outer true true text).layout = some layout →
      Eval itf flags outer (.body rest) (layout.map ((doc.reach outer true true text).withClosure
        (if inverted then itf.leave closure else closure)).withLayout) result →
      Eval itf flags outer (.body (.nested text inverted name body rest)) (.ok doc) result
  | again {outer : List UInt8} {body : Body} {doc one : Doc σ} {closure : σ}
      {result : Except MustachError (Doc σ)} :
      Eval itf flags outer (.body body) (.ok doc) (.ok one) →
      itf.next one.closure = .ok (true, closure) →
      Eval itf flags outer (.loop body) (.ok (one.withClosure closure)) result →
      Eval itf flags outer (.loop body) (.ok doc) result
  | last {outer : List UInt8} {body : Body} {doc one : Doc σ} {closure : σ} :
      Eval itf flags outer (.body body) (.ok doc) (.ok one) →
      itf.next one.closure = .ok (false, closure) →
      Eval itf flags outer (.loop body) (.ok doc) (.ok (one.withClosure (itf.leave closure)))
  | stopped {outer : List UInt8} {body : Body} {doc : Doc σ} {e : MustachError} :
      Eval itf flags outer (.body body) (.ok doc) (.error e) →
      Eval itf flags outer (.loop body) (.ok doc) (.error e)
  | noNext {outer : List UInt8} {body : Body} {doc one : Doc σ} {e : MustachError} :
      Eval itf flags outer (.body body) (.ok doc) (.ok one) →
      itf.next one.closure = .error e →
      Eval itf flags outer (.loop body) (.ok doc) (.error e)

end Guardwatch.Mustach
