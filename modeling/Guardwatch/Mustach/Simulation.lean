import Guardwatch.Mustach.Template

/-! `process` computes the meaning of the template's tree. -/

namespace Guardwatch.Mustach

open CInput

variable {σ : Type} {itf : MustachItf σ} {flags : MustachFlags} {fuel : Nat}
  {outer opstr clstr text front tag rest line name out template left : List UInt8}
  {enabled alone : Bool} {layout : Layout} {st : Process σ} {doc : Doc σ}

/-! ### The search of the opening delimiter -/

theorem opening_not_prefix {c : UInt8} (space : isspace c = true) :
    opening.isPrefixOf (c :: text) = false := by
  have other : c ≠ 123 := by
    rintro rfl
    cases space
  simp [opening, List.isPrefixOf, other.symm]

theorem isspace_newline : isspace Bytes.newline = true := by decide

theorem findDelimiter_space {c : UInt8} (space : isspace c = true) :
    findDelimiter opening (c :: text) =
      (findDelimiter opening text).map fun (front, rest) => (c :: front, rest) := by
  rw [findDelimiter, opening_not_prefix space]
  rfl

/-- The search ends behind the text in front of the first delimiter. -/
theorem scanText_found (found : findDelimiter opening text = some (front, rest)) :
    scanText outer opening enabled layout line text =
      .opening ((writeText outer enabled layout line front).1 ++
          ((writeText outer enabled layout line front).2.1.show outer enabled).1)
        ((writeText outer enabled layout line front).2.1.show outer enabled).2
        (writeText outer enabled layout line front).2.2 rest := by
  induction text generalizing layout line front with
  | nil => cases found
  | cons c text ih =>
    by_cases space : isspace c
    · rw [findDelimiter_space space] at found
      obtain ⟨⟨front, rest'⟩, further, same⟩ := Option.map_eq_some_iff.mp found
      simp only [Prod.mk.injEq] at same
      obtain ⟨rfl, rfl⟩ := same
      by_cases ends : c = Bytes.newline
      · simp only [scanText, writeText, if_pos ends, ih further, Scanned.after, Prod.map,
          List.append_assoc, id]
      · simp only [scanText, writeText, if_neg ends, if_pos space, ih further]
    · have other : c ≠ Bytes.newline := fun ends => space (ends ▸ isspace_newline)
      rw [findDelimiter] at found
      split at found
      · rename_i here
        simp only [Option.some.injEq, Prod.mk.injEq] at found
        obtain ⟨rfl, rfl⟩ := found
        simp only [scanText, if_neg other, if_neg space, if_pos here, writeText, List.nil_append]
      · rename_i here
        obtain ⟨⟨front, rest'⟩, further, same⟩ := Option.map_eq_some_iff.mp found
        simp only [Prod.mk.injEq] at same
        obtain ⟨rfl, rfl⟩ := same
        simp only [scanText, writeText, if_neg other, if_neg space, if_neg here, ih further,
          Scanned.after, Prod.map, List.append_assoc, id]

theorem scanText_ended (none : findDelimiter opening text = none) :
    scanText outer opening enabled layout line text =
      .ended ((writeText outer enabled layout line text).1 ++
        (writeText outer enabled layout line text).2.1.endLine outer enabled
          (writeText outer enabled layout line text).2.2 []) := by
  induction text generalizing layout line with
  | nil => simp only [scanText, writeText, List.nil_append]
  | cons c text ih =>
    by_cases space : isspace c
    · rw [findDelimiter_space space, Option.map_eq_none_iff] at none
      by_cases ends : c = Bytes.newline
      · simp only [scanText, writeText, if_pos ends, ih none, Scanned.after, Prod.map,
          List.append_assoc, id]
      · simp only [scanText, writeText, if_neg ends, if_pos space, ih none]
    · have other : c ≠ Bytes.newline := fun ends => space (ends ▸ isspace_newline)
      rw [findDelimiter] at none
      split at none
      · cases none
      · rename_i here
        rw [Option.map_eq_none_iff] at none
        simp only [scanText, writeText, if_neg other, if_neg space, if_neg here, ih none,
          Scanned.after, Prod.map, List.append_assoc, id]

/-! ### Text that is not shown -/

theorem show_disabled : layout.show outer false = ([], layout) := by
  simp [Layout.show, Layout.shows]

theorem endLine_disabled {ending : List UInt8} : layout.endLine outer false line ending = [] := by
  simp [Layout.endLine]

theorem writeText_disabled : writeText outer false layout line text =
    ([], (writeText [] false layout line text).2) := by
  induction text generalizing layout line with
  | nil => rfl
  | cons c text ih =>
    simp only [writeText, show_disabled, endLine_disabled]
    split
    · rw [ih, Prod.map]
      rfl
    · split
      · exact ih
      · rw [ih, Prod.map]
        rfl

theorem reachTag_disabled :
    reachTag outer false alone layout line = ([], (reachTag [] false alone layout line).2) := by
  simp only [reachTag]
  split <;> rfl

theorem textTag_disabled :
    textTag outer false alone layout text = ([], (textTag [] false alone layout text).2) := by
  simp only [textTag, show_disabled]
  rw [writeText_disabled, reachTag_disabled]
  rfl

/-! ### Rounds of the loop -/

/-- `process` returns, in finitely many rounds. -/
def Process.Returns (itf : MustachItf σ) (flags : MustachFlags) (outer : List UInt8)
    (st : Process σ) (result : Except MustachError (List UInt8 × σ)) : Prop :=
  ∃ fuel, process itf flags fuel outer st = some result

/-- What a result is when the document of a part leads to it, and the error of the part. -/
def Leads {α β : Type} (K : α → Except MustachError β → Prop) :
    Except MustachError α → Except MustachError β → Prop
  | .error e, result => result = .error e
  | .ok a, result => K a result

/-- What a tag leads to, with at most `fuel` rounds. -/
def Action.run (itf : MustachItf σ) (flags : MustachFlags) (fuel : Nat) (outer : List UInt8) :
    Action σ → Option (Except MustachError (List UInt8 × σ))
  | .fail e => some (.error e)
  | .resume st => process itf flags fuel outer st
  | .call template st =>
    match process itf flags fuel (outer ++ st.doc.layout.pref)
        (.init template st.doc.closure st.doc.out) with
    | none => none
    | some (.error e) => some (.error e)
    | some (.ok (out, closure)) =>
      process itf flags fuel outer { st with doc := { st.doc with closure, out } }

def Action.Returns (itf : MustachItf σ) (flags : MustachFlags) (outer : List UInt8)
    (action : Action σ) (result : Except MustachError (List UInt8 × σ)) : Prop :=
  ∃ fuel, action.run itf flags fuel outer = some result

theorem process_succ {result : Except MustachError (List UInt8 × σ)}
    (returns : process itf flags fuel outer st = some result) :
    process itf flags (fuel + 1) outer st = some result := by
  induction fuel generalizing outer st result with
  | zero => cases returns
  | succ fuel ih =>
    rw [process] at returns ⊢
    split at returns
    · exact returns
    · split at returns
      · exact returns
      · exact returns
      · dsimp only at returns ⊢
        split at returns
        · exact returns
        · exact ih returns
        · split at returns
          · cases returns
          · rename_i inner
            rw [ih inner]
            exact returns
          · rename_i inner
            rw [ih inner]
            exact ih returns

theorem process_mono {result : Except MustachError (List UInt8 × σ)} {more : Nat}
    (returns : process itf flags fuel outer st = some result) (le : fuel ≤ more) :
    process itf flags more outer st = some result := by
  induction le with
  | refl => exact returns
  | step _ ih => exact process_succ ih

/-- The variables in front of a part of a template, with the delimiters of the start. -/
def Process.inside (enabled : Bool) (template : List UInt8) (stack : List Frame) (doc : Doc σ) :
    Process σ := ⟨template, opening, closing, enabled, stack, doc⟩

theorem Doc.reach_closure : (doc.reach outer enabled alone text).closure = doc.closure := rfl

theorem Doc.reach_disabled : doc.reach outer false alone text =
    doc.withLayout (textTag [] false alone doc.layout text).2 := by
  rw [reach, textTag_disabled, write, List.append_nil]
  rfl

variable {stack : List Frame} {result : Except MustachError (List UInt8 × σ)}

theorem layout_of_call {tag : Tag} {st called : Process σ}
    (call : st.apply itf tag = .call template called) : called.doc.layout = st.doc.layout := by
  cases tag with
  | comment => cases call
  | delimiters opstr clstr => cases call
  | beginSection inverted name =>
    simp only [Process.apply, Process.begin] at call
    repeat' split at call
    all_goals cases call
  | endSection name =>
    simp only [Process.apply, Process.finish] at call
    repeat' split at call
    all_goals cases call
  | partials name =>
    simp only [Process.apply] at call
    repeat' split at call
    all_goals cases call
    rfl
  | replacement name escape =>
    simp only [Process.apply] at call
    repeat' split at call
    all_goals cases call

/-- A round in front of a tag. -/
theorem process_tag {read : ReadTag} (found : findDelimiter opening text = some (front, tag))
    (is_tag : readTag flags closing tag = some (.ok read)) :
    process itf flags (fuel + 1) outer (.inside enabled text stack doc) =
      ((Process.inside enabled read.rest stack (doc.reach outer enabled read.alone front)).apply
        itf read.tag).run itf flags fuel outer := by
  have layout : ∀ template st, (Process.inside enabled read.rest stack
      (doc.reach outer enabled read.alone front)).apply itf read.tag = .call template st →
      st.doc.layout = (doc.reach outer enabled read.alone front).layout :=
    fun template st => layout_of_call
  rw [process]
  simp only [Process.inside, scanText_found found, is_tag, Doc.reach, textTag, Doc.write,
    List.append_assoc] at layout ⊢
  split
  · rename_i fail
    rw [fail]
    rfl
  · rename_i resume
    rw [resume]
    rfl
  · rename_i template st call
    have same := layout _ _ call
    rw [call]
    exact same ▸ rfl

theorem process_end (none : findDelimiter opening text = none) :
    process itf flags (fuel + 1) outer (.inside enabled text [] doc) = some (.ok (doc.out ++
      ((writeText outer enabled doc.layout [] text).1 ++
        (writeText outer enabled doc.layout [] text).2.1.endLine outer enabled
          (writeText outer enabled doc.layout [] text).2.2 []), doc.closure)) := by
  rw [process]
  simp only [Process.inside, scanText_ended none]
  rfl

theorem process_unclosed {frame : Frame} (none : findDelimiter opening text = none) :
    process itf flags (fuel + 1) outer (.inside enabled text (frame :: stack) doc) =
      some (.error .unexpectedEnd) := by
  rw [process]
  simp only [Process.inside, scanText_ended none]
  rfl

theorem process_invalid {e : MustachError} (found : findDelimiter opening text = some (front, tag))
    (invalid : readTag flags closing tag = some (.error e)) :
    process itf flags (fuel + 1) outer (.inside enabled text stack doc) = some (.error e) := by
  rw [process]
  simp only [Process.inside, scanText_found found, invalid]

theorem returns_tag {read : ReadTag} (found : findDelimiter opening text = some (front, tag))
    (is_tag : readTag flags closing tag = some (.ok read))
    (returns : ((Process.inside enabled read.rest stack
      (doc.reach outer enabled read.alone front)).apply itf read.tag).Returns itf flags outer
        result) :
    (Process.inside enabled text stack doc).Returns itf flags outer result := by
  obtain ⟨fuel, returns⟩ := returns
  exact ⟨fuel + 1, (process_tag found is_tag).trans returns⟩

theorem returns_fail {e : MustachError} :
    (Action.fail e : Action σ).Returns itf flags outer (.error e) := ⟨0, rfl⟩

theorem returns_call {inner : Except MustachError (List UInt8 × σ)}
    (called : (Process.init template st.doc.closure st.doc.out).Returns itf flags
      (outer ++ st.doc.layout.pref) inner)
    (returns : Leads (fun (out, closure) =>
      { st with doc := { st.doc with closure, out } }.Returns itf flags outer) inner result) :
    (Action.call template st).Returns itf flags outer result := by
  obtain ⟨first, called⟩ := called
  cases inner with
  | error e =>
    refine ⟨first, ?_⟩
    rw [Action.run, called, show result = .error e from returns]
  | ok done =>
    obtain ⟨second, returns⟩ := returns
    refine ⟨max first second, ?_⟩
    rw [Action.run, process_mono called (Nat.le_max_left first second)]
    exact process_mono returns (Nat.le_max_right first second)

/-! ### Parts of templates -/

/-- How `process` goes on behind a part of a template: it returns at the end of the template, and
otherwise the section around the part ends. -/
def Ends (itf : MustachItf σ) (flags : MustachFlags) (outer : List UInt8) (enabled : Bool)
    (stack : List Frame) (left : List UInt8) (doc : Doc σ)
    (result : Except MustachError (List UInt8 × σ)) : Prop :=
  match stack with
  | [] => result = .ok (doc.out, doc.closure)
  | frame :: _ =>
    ((Process.inside enabled left stack doc).finish itf frame.name).Returns itf flags outer result

theorem finish_mismatch (other : (stack.map Frame.name).head? ≠ some name) :
    (Process.inside enabled rest stack doc).finish itf name = .fail .closing := by
  cases stack with
  | nil => rfl
  | cons frame stack =>
    have other : name ≠ frame.name := fun same => other (congrArg some same.symm)
    simp only [Process.finish, Process.inside, if_pos other]

theorem begin_deep {inverted : Bool} (deep : stack.length = mustachMaxDepth) :
    (Process.inside enabled rest stack doc).begin itf inverted name = .fail .tooDeep :=
  if_pos deep

theorem begin_disabled {inverted : Bool} (fits : stack.length ≠ mustachMaxDepth) :
    (Process.inside false rest stack doc).begin itf inverted name =
      .resume (.inside false rest (⟨name, rest, false, false⟩ :: stack) doc) := by
  simp [Process.begin, Process.inside, fits]

theorem finish_disabled {again : List UInt8} :
    (Process.inside false left (⟨name, again, false, false⟩ :: stack) doc).finish itf name =
      .resume (.inside false left stack doc) := by
  simp [Process.finish, Process.inside, Process.leave]

/-- A part that is not shown changes the layout only. -/
theorem skip_returns {body : Body} {opened : List (List UInt8)}
    (parses : Parses flags opened text body left) {skipped : Except MustachError Layout}
    (skip : body.skip doc.layout = some skipped) (names : stack.map Frame.name = opened)
    (leads : Leads (Ends itf flags outer false stack left) (skipped.map doc.withLayout) result) :
    (Process.inside false text stack doc).Returns itf flags outer result := by
  induction parses generalizing doc stack skipped with
  | finish none =>
    cases skip
    rw [List.map_eq_nil_iff] at names
    subst names
    have same : result = .ok (doc.out, doc.closure) := leads
    refine ⟨1, ?_⟩
    rw [process_end none, writeText_disabled, endLine_disabled, List.append_nil, List.append_nil,
      same]
  | unclosed none =>
    cases skip
    obtain ⟨frame, stack, rfl, -⟩ := List.map_eq_cons_iff.mp names
    rw [show result = .error .unexpectedEnd from leads]
    exact ⟨1, process_unclosed none⟩
  | undefined => cases skip
  | delimiters => cases skip
  | invalid found invalid =>
    cases skip
    rw [show result = .error _ from leads]
    exact ⟨1, process_invalid found invalid⟩
  | comment found is_tag _ ih =>
    apply returns_tag found is_tag
    rw [Doc.reach_disabled]
    exact ih skip names leads
  | replacement found is_tag _ ih =>
    apply returns_tag found is_tag
    rw [Doc.reach_disabled]
    exact ih skip names leads
  | partials found is_tag _ ih =>
    apply returns_tag found is_tag
    rw [Doc.reach_disabled]
    exact ih skip names leads
  | deep found is_tag deep =>
    cases skip
    rw [show result = .error .tooDeep from leads]
    apply returns_tag found is_tag
    rw [← names, List.length_map] at deep
    rw [Process.apply, begin_deep deep]
    exact returns_fail
  | @nested opened text front tag name rest between left inverted body after found is_tag fits
      _ _ ihBody ihAfter =>
    apply returns_tag found is_tag
    rw [← names, List.length_map] at fits
    rw [Doc.reach_disabled, Process.apply, begin_disabled fits]
    cases inner : body.skip (textTag [] false true doc.layout front).2 with
    | none =>
      rw [Body.skip, inner] at skip
      cases skip
    | some one =>
      apply ihBody inner
        (by rw [List.map_cons, names])
      rw [Body.skip, inner] at skip
      cases one with
      | error e =>
        cases skip
        exact leads
      | ok layout =>
        rw [Except.map, Leads, Ends, finish_disabled]
        exact ihAfter skip names leads
  | close found is_tag =>
    cases skip
    obtain ⟨frame, stack, rfl, rfl, -⟩ := List.map_eq_cons_iff.mp names
    apply returns_tag found is_tag
    rw [Doc.reach_disabled]
    exact leads
  | mismatch found is_tag other =>
    cases skip
    rw [show result = .error .closing from leads]
    apply returns_tag found is_tag
    rw [Process.apply, finish_mismatch (names ▸ other)]
    exact returns_fail

theorem apply_replacement {escape : Bool} :
    (Process.inside true rest stack doc).apply itf (.replacement name escape) =
      match doc.put itf name escape with
      | .error e => .fail e
      | .ok doc => .resume (.inside true rest stack doc) := by
  rfl

theorem apply_partials :
    (Process.inside true rest stack doc).apply itf (.partials name) =
      match itf.partials doc.closure name with
      | .error e => .fail e
      | .ok (template, closure) =>
        .call template (.inside true rest stack (doc.withClosure closure)) := by
  simp only [Process.apply, Process.inside, if_true]
  rfl

theorem apply_begin {inverted : Bool} (fits : stack.length ≠ mustachMaxDepth) :
    (Process.inside true rest stack doc).apply itf (.beginSection inverted name) =
      match itf.enter doc.closure name with
      | .error e => .fail e
      | .ok (entered, closure) =>
        .resume (.inside (entered != inverted) rest (⟨name, rest, true, entered⟩ :: stack)
          (doc.withClosure closure)) := by
  simp only [Process.apply, Process.begin, Process.inside, if_neg fits, if_true]
  rfl

theorem returns_put {escape : Bool} (further : Leads (fun doc =>
      (Process.inside true rest stack doc).Returns itf flags outer) (doc.put itf name escape)
      result) :
    ((Process.inside true rest stack doc).apply itf (.replacement name escape)).Returns itf flags
      outer result := by
  rw [apply_replacement]
  cases put : doc.put itf name escape with
  | error e =>
    rw [put] at further
    rw [show result = .error e from further]
    exact returns_fail
  | ok doc => rwa [put] at further

theorem returns_enter {inverted : Bool} (fits : stack.length ≠ mustachMaxDepth)
    {entered : Bool} {closure : σ} (enter : itf.enter doc.closure name = .ok (entered, closure))
    (further : (Process.inside (entered != inverted) rest (⟨name, rest, true, entered⟩ :: stack)
      (doc.withClosure closure)).Returns itf flags outer result) :
    ((Process.inside true rest stack doc).apply itf (.beginSection inverted name)).Returns itf flags
      outer result := by
  rw [apply_begin fits, enter]
  exact further

theorem finish_absent {again : List UInt8} :
    (Process.inside true left (⟨name, again, true, false⟩ :: stack) doc).finish itf name =
      .resume (.inside true left stack doc) := by
  simp [Process.finish, Process.inside, Process.leave]

theorem finish_skipped {again : List UInt8} {entered : Bool} :
    (Process.inside false left (⟨name, again, true, entered⟩ :: stack) doc).finish itf name =
      .resume (.inside true left stack
        (doc.withClosure (if entered then itf.leave doc.closure else doc.closure))) := by
  simp [Process.finish, Process.inside, Process.leave, Doc.withClosure]

section Entered

variable {again : List UInt8} {closure : σ}

theorem finish_again (next : itf.next doc.closure = .ok (true, closure)) :
    (Process.inside true left (⟨name, again, true, true⟩ :: stack) doc).finish itf name =
      .resume (.inside true again (⟨name, again, true, true⟩ :: stack)
        (doc.withClosure closure)) := by
  simp [Process.finish, Process.inside, next, Doc.withClosure]

theorem finish_last (next : itf.next doc.closure = .ok (false, closure)) :
    (Process.inside true left (⟨name, again, true, true⟩ :: stack) doc).finish itf name =
      .resume (.inside true left stack (doc.withClosure (itf.leave closure))) := by
  simp [Process.finish, Process.inside, Process.leave, next, Doc.withClosure]

theorem finish_noNext {e : MustachError} (next : itf.next doc.closure = .error e) :
    (Process.inside true left (⟨name, again, true, true⟩ :: stack) doc).finish itf name =
      .fail e := by
  simp [Process.finish, Process.inside, next]

end Entered

/-- `process` does with the text of a part what its tree means. -/
def Simulates (itf : MustachItf σ) (flags : MustachFlags) (outer : List UInt8) :
    Work → Except MustachError (Doc σ) → Except MustachError (Doc σ) → Prop
  | .body b, input, output => ∀ {opened text left stack result}, Parses flags opened text b left →
      stack.map Frame.name = opened → Leads (Ends itf flags outer true stack left) output result →
      Leads (fun doc => (Process.inside true text stack doc).Returns itf flags outer) input result
  | .loop b, input, output => ∀ {name text left stack result},
      Parses flags (name :: stack.map Frame.name) text b left →
      Leads (fun doc => (Process.inside true left stack doc).Returns itf flags outer) output
        result →
      Leads (fun doc => (Process.inside true text (⟨name, text, true, true⟩ :: stack) doc).Returns
        itf flags outer) input result

theorem eval_simulates {work : Work} {input output : Except MustachError (Doc σ)}
    (eval : Eval itf flags outer work input output) :
    Simulates itf flags outer work input output := by
  induction eval with
  | @failed outer work e =>
    cases work with
    | body => exact fun _ _ leads => leads
    | loop => exact fun _ leads => leads
  | finish =>
    intro opened text left stack result parses names leads
    cases parses with
    | finish none =>
    rw [List.map_eq_nil_iff] at names
    subst names
    have same : result = _ := leads
    subst same
    exact ⟨1, process_end none⟩
  | close =>
    intro opened text left stack result parses names leads
    cases parses with
    | close found is_tag =>
    obtain ⟨frame, stack, rfl, rfl, -⟩ := List.map_eq_cons_iff.mp names
    exact returns_tag found is_tag leads
  | fail =>
    intro opened text left stack result parses names leads
    have same : result = _ := leads
    subst same
    cases parses with
    | unclosed none =>
      obtain ⟨frame, stack, rfl, -⟩ := List.map_eq_cons_iff.mp names
      exact ⟨1, process_unclosed none⟩
    | invalid found invalid => exact ⟨1, process_invalid found invalid⟩
    | deep found is_tag deep =>
      apply returns_tag found is_tag
      rw [← names, List.length_map] at deep
      rw [Process.apply, begin_deep deep]
      exact returns_fail
    | mismatch found is_tag other =>
      apply returns_tag found is_tag
      rw [Process.apply, finish_mismatch (names ▸ other)]
      exact returns_fail
  | comment _ ih =>
    intro opened text left stack result parses names leads
    cases parses with
    | comment found is_tag parses => exact returns_tag found is_tag (ih parses names leads)
  | replacement _ ih =>
    intro opened text left stack result parses names leads
    cases parses with
    | replacement found is_tag parses =>
    apply returns_tag found is_tag
    exact returns_put (ih parses names leads)
  | noPartials no =>
    intro opened text left stack result parses names leads
    have same : result = _ := leads
    subst same
    cases parses with
    | partials found is_tag parses =>
    apply returns_tag found is_tag
    rw [apply_partials, Doc.reach_closure, no]
    exact returns_fail
  | @partials outer front name template _ doc closure done _ yes _ _ ihTemplate ihRest =>
    intro opened text left stack result parses names leads
    obtain ⟨_, whole⟩ := parses_ofTemplate template
    cases parses with
    | partials found is_tag parses =>
    apply returns_tag found is_tag
    rw [apply_partials, Doc.reach_closure, yes]
    have further := ihRest parses names leads
    have called :=
      @ihTemplate _ _ _ [] (done.map fun doc => (doc.out, doc.closure)) whole rfl
    cases done with
    | error e => exact returns_call (called rfl) further
    | ok done => exact returns_call (called rfl) further
  | notEntered no =>
    intro opened text left stack result parses names leads
    have same : result = _ := leads
    subst same
    cases parses with
    | nested found is_tag shallow inner after =>
    apply returns_tag found is_tag
    rw [← names, List.length_map] at shallow
    rw [apply_begin shallow, Doc.reach_closure, no]
    exact returns_fail
  | @entered outer front _ _ _ doc _ _ _ yes _ _ ihLoop ihRest =>
    intro opened text left stack result parses names leads
    cases parses with
    | nested found is_tag shallow inner after =>
    subst names
    apply returns_tag found is_tag
    rw [List.length_map] at shallow
    exact returns_enter shallow yes
      (ihLoop inner (ihRest after rfl leads))
  | @absent outer front name _ _ doc _ done _ no _ _ ihBody ihRest =>
    intro opened text left stack result parses names leads
    cases parses with
    | @nested _ _ _ _ _ rest between _ _ _ _ found is_tag shallow inner after =>
    subst names
    apply returns_tag found is_tag
    rw [List.length_map] at shallow
    refine returns_enter shallow no ?_
    refine ihBody inner rfl ?_
    have further := ihRest after rfl leads
    cases done with
    | error e => exact further
    | ok doc =>
      rw [Leads, Ends, finish_absent]
      exact further
  | @skipped outer front name inverted _ _ doc _ layout _ answer skip _ ihRest =>
    intro opened text left stack result parses names leads
    cases parses with
    | @nested _ _ _ _ _ rest between _ _ _ _ found is_tag shallow inner after =>
    subst names
    apply returns_tag found is_tag
    rw [List.length_map] at shallow
    refine returns_enter shallow answer ?_
    rw [bne_self_eq_false]
    refine skip_returns inner skip rfl ?_
    have further := ihRest after rfl leads
    cases layout with
    | error e => exact further
    | ok layout =>
      rw [Except.map, Leads, Ends, finish_skipped]
      exact further
  | again _ next _ ihBody ihLoop =>
    intro name text left stack result parses leads
    refine ihBody parses rfl ?_
    rw [Leads, Ends, finish_again next]
    exact ihLoop parses leads
  | last _ next ihBody =>
    intro name text left stack result parses leads
    refine ihBody parses rfl ?_
    rw [Leads, Ends, finish_last next]
    exact leads
  | stopped _ ihBody =>
    intro name text left stack result parses leads
    exact ihBody parses rfl leads
  | noNext _ next ihBody =>
    intro name text left stack result parses leads
    refine ihBody parses rfl ?_
    rw [Leads, Ends, finish_noNext next, show result = .error _ from leads]
    exact returns_fail

/-- What the tree of a template means is what `process` returns for the template. -/
theorem process_returns_tree (itf : MustachItf σ) (flags : MustachFlags) (template : List UInt8)
    (closure : σ) (out : List UInt8) {output : Except MustachError (Doc σ)}
    (eval : Eval itf flags [] (.body (.ofTemplate flags template))
      (.ok ⟨closure, ⟨.blank, []⟩, out⟩) output) :
    (Process.init template closure out).Returns itf flags []
      (output.map fun doc => (doc.out, doc.closure)) := by
  obtain ⟨_, whole⟩ := parses_ofTemplate template
  refine eval_simulates eval whole rfl ?_
  cases output <;> rfl

end Guardwatch.Mustach
