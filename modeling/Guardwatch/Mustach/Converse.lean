import Guardwatch.Mustach.Simulation

/-! Nothing else is returned: what `process` returns is what the template's tree means. -/

namespace Guardwatch.Mustach

/-- No tag that changes the delimiters. -/
def Body.known : Body → Bool
  | .finish _ | .close _ | .fail _ => true
  | .unknown => false
  | .comment _ rest | .replacement _ _ _ rest | .partials _ _ rest => rest.known
  | .nested _ _ _ body rest => body.known && rest.known

def Work.known : Work → Bool
  | .body b | .loop b => b.known

variable {σ : Type} {itf : MustachItf σ} {flags : MustachFlags} {fuel : Nat}
  {outer text left name : List UInt8} {stack : List Frame} {doc : Doc σ} {enabled : Bool}
  {result : Except MustachError (List UInt8 × σ)}

/-- How `process` went on behind a part: in fewer rounds, unless that was the end. -/
def Went (itf : MustachItf σ) (flags : MustachFlags) (outer : List UInt8) (fuel : Nat)
    (enabled : Bool) (stack : List Frame) (left : List UInt8) :
    Except MustachError (Doc σ) → Except MustachError (List UInt8 × σ) → Prop :=
  Leads fun doc result =>
    match stack with
    | [] => result = .ok (doc.out, doc.closure)
    | frame :: _ => ∃ less < fuel,
      ((Process.inside enabled left stack doc).finish itf frame.name).run itf flags less outer =
        some result

theorem Went.mono {output : Except MustachError (Doc σ)} {more : Nat}
    (went : Went itf flags outer fuel enabled stack left output result) (le : fuel ≤ more) :
    Went itf flags outer more enabled stack left output result := by
  cases output with
  | error e => exact went
  | ok doc =>
    cases stack with
    | nil => exact went
    | cons frame stack =>
      obtain ⟨less, lt, run⟩ := went
      exact ⟨less, lt.trans_le le, run⟩

theorem process_pos {st : Process σ} (run : process itf flags fuel outer st = some result) :
    ∃ less, fuel = less + 1 := by
  cases fuel with
  | zero => cases run
  | succ less => exact ⟨less, rfl⟩

/-- A run over a part that is not shown. -/
theorem skip_of_process {body : Body} {opened : List (List UInt8)}
    (parses : Parses flags opened text body left) (known : body.known)
    (names : stack.map Frame.name = opened)
    (run : process itf flags fuel outer (.inside false text stack doc) = some result) :
    ∃ skipped, body.skip doc.layout = some skipped ∧
      Went itf flags outer fuel false stack left (skipped.map doc.withLayout) result := by
  induction parses generalizing fuel stack doc with
  | finish none =>
    rw [List.map_eq_nil_iff] at names
    subst names
    obtain ⟨fuel, rfl⟩ := process_pos run
    rw [process_end none, writeText_disabled, endLine_disabled, List.append_nil,
      List.append_nil] at run
    cases run
    exact ⟨.ok doc.layout, rfl, rfl⟩
  | unclosed none =>
    obtain ⟨frame, stack, rfl, -⟩ := List.map_eq_cons_iff.mp names
    obtain ⟨fuel, rfl⟩ := process_pos run
    rw [process_unclosed none] at run
    cases run
    exact ⟨.error .unexpectedEnd, rfl, rfl⟩
  | undefined => cases known
  | delimiters => cases known
  | @invalid _ _ _ _ e found invalid =>
    obtain ⟨fuel, rfl⟩ := process_pos run
    rw [process_invalid found invalid] at run
    cases run
    exact ⟨.error e, rfl, rfl⟩
  | comment found is_tag _ ih =>
    obtain ⟨fuel, rfl⟩ := process_pos run
    rw [process_tag found is_tag, Doc.reach_disabled] at run
    obtain ⟨skipped, skip, went⟩ := ih known names run
    exact ⟨skipped, skip, went.mono (Nat.le_succ fuel)⟩
  | replacement found is_tag _ ih =>
    obtain ⟨fuel, rfl⟩ := process_pos run
    rw [process_tag found is_tag, Doc.reach_disabled] at run
    obtain ⟨skipped, skip, went⟩ := ih known names run
    exact ⟨skipped, skip, went.mono (Nat.le_succ fuel)⟩
  | partials found is_tag _ ih =>
    obtain ⟨fuel, rfl⟩ := process_pos run
    rw [process_tag found is_tag, Doc.reach_disabled] at run
    obtain ⟨skipped, skip, went⟩ := ih known names run
    exact ⟨skipped, skip, went.mono (Nat.le_succ fuel)⟩
  | deep found is_tag deep =>
    obtain ⟨fuel, rfl⟩ := process_pos run
    rw [← names, List.length_map] at deep
    rw [process_tag found is_tag, Process.apply, begin_deep deep] at run
    cases run
    exact ⟨.error .tooDeep, rfl, rfl⟩
  | @nested opened text front tag name rest between left inverted body after found is_tag fits
      _ _ ihBody ihAfter =>
    rw [Body.known, Bool.and_eq_true] at known
    obtain ⟨fuel, rfl⟩ := process_pos run
    rw [← names, List.length_map] at fits
    rw [process_tag found is_tag, Doc.reach_disabled, Process.apply, begin_disabled fits] at run
    obtain ⟨skipped, skip, went⟩ := ihBody known.1
      (by rw [List.map_cons, names]) run
    have skip : body.skip (textTag [] false true doc.layout front).2 = some skipped := skip
    cases skipped with
    | error e => exact ⟨.error e, by rw [Body.skip, skip], went⟩
    | ok layout =>
      obtain ⟨less, lt, run⟩ := went
      rw [finish_disabled] at run
      obtain ⟨last, skip_after, went⟩ := ihAfter known.2 names run
      exact ⟨last, by rw [Body.skip, skip]; exact skip_after, went.mono (by omega)⟩
  | close found is_tag =>
    obtain ⟨frame, stack, rfl, rfl, -⟩ := List.map_eq_cons_iff.mp names
    obtain ⟨fuel, rfl⟩ := process_pos run
    rw [process_tag found is_tag, Doc.reach_disabled] at run
    exact ⟨.ok _, rfl, fuel, Nat.lt_succ_self fuel, run⟩
  | mismatch found is_tag other =>
    obtain ⟨fuel, rfl⟩ := process_pos run
    rw [process_tag found is_tag, Process.apply, finish_mismatch (names ▸ other)] at run
    cases run
    exact ⟨.error .closing, rfl, rfl⟩

/-- What a run of at most `fuel` rounds over the text of a part says about its tree. -/
def Explained (itf : MustachItf σ) (flags : MustachFlags) (fuel : Nat) : Work → Prop
  | .body b => ∀ {outer opened text left stack doc result}, Parses flags opened text b left →
      stack.map Frame.name = opened →
      process itf flags fuel outer (.inside true text stack doc) = some result →
      ∃ output, Eval itf flags outer (.body b) (.ok doc) output ∧
        Went itf flags outer fuel true stack left output result
  | .loop b => ∀ {outer name text left stack doc result},
      Parses flags (name :: stack.map Frame.name) text b left →
      process itf flags fuel outer (.inside true text (⟨name, text, true, true⟩ :: stack) doc) =
        some result →
      ∃ output, Eval itf flags outer (.loop b) (.ok doc) output ∧
        Leads (fun doc result => ∃ less < fuel,
          process itf flags less outer (.inside true left stack doc) = some result) output result

/-- A section, where what it repeats is explained for fewer rounds. -/
theorem loop_explained {b : Body} (body : Explained itf flags fuel (.body b))
    (fewer : ∀ less < fuel, Explained itf flags less (.loop b)) :
    Explained itf flags fuel (.loop b) := by
  intro outer name text left stack doc result parses run
  obtain ⟨output, eval, went⟩ := body parses rfl run
  cases output with
  | error e => exact ⟨.error e, .stopped eval, went⟩
  | ok one =>
    obtain ⟨less, lt, run⟩ := went
    cases next : itf.next one.closure with
    | error e =>
      rw [finish_noNext next] at run
      cases run
      exact ⟨.error e, .noNext eval next, rfl⟩
    | ok answer =>
      obtain ⟨another, closure⟩ := answer
      cases another with
      | false =>
        rw [finish_last next] at run
        exact ⟨_, .last eval next, less, lt, run⟩
      | true =>
        rw [finish_again next] at run
        obtain ⟨output, eval_more, leads⟩ := fewer less lt parses run
        refine ⟨output, .again eval next eval_more, ?_⟩
        cases output with
        | error e => exact leads
        | ok doc =>
          obtain ⟨least, lt', run⟩ := leads
          exact ⟨least, lt'.trans lt, run⟩

theorem body_explained
    (templates : ∀ s name template closure, itf.partials s name = .ok (template, closure) →
      (Body.ofTemplate flags template).known)
    {b : Body} (known : b.known)
    (fewer : ∀ less < fuel, ∀ work : Work, work.known → Explained itf flags less work) :
    Explained itf flags fuel (.body b) := by
  intro outer opened text left stack doc result parses names run
  obtain ⟨fuel, rfl⟩ := process_pos run
  have further (work : Work) (known : work.known) : Explained itf flags fuel work :=
    fewer fuel (Nat.lt_succ_self fuel) work known
  cases parses with
  | finish none =>
    rw [List.map_eq_nil_iff] at names
    subst names
    rw [process_end none] at run
    cases run
    exact ⟨_, .finish, rfl⟩
  | unclosed none =>
    obtain ⟨frame, stack, rfl, -⟩ := List.map_eq_cons_iff.mp names
    rw [process_unclosed none] at run
    cases run
    exact ⟨_, .fail, rfl⟩
  | undefined => cases known
  | delimiters => cases known
  | invalid found invalid =>
    rw [process_invalid found invalid] at run
    cases run
    exact ⟨_, .fail, rfl⟩
  | comment found is_tag parses =>
    rw [process_tag found is_tag] at run
    obtain ⟨output, eval, went⟩ := further (.body _) known parses names run
    exact ⟨output, .comment eval, went.mono (Nat.le_succ fuel)⟩
  | @replacement _ _ front _ name _ _ escape _ found is_tag parses =>
    rw [process_tag found is_tag, apply_replacement] at run
    cases put : (doc.reach outer true false front).put itf name escape with
    | error e =>
      rw [put] at run
      cases run
      exact ⟨.error e, .replacement (by rw [put]; exact .failed), rfl⟩
    | ok written =>
      rw [put] at run
      obtain ⟨output, eval, went⟩ := further (.body _) known parses names run
      exact ⟨output, .replacement (by rw [put]; exact eval), went.mono (Nat.le_succ fuel)⟩
  | @partials _ _ front _ name rest _ _ found is_tag parses =>
    rw [process_tag found is_tag, apply_partials, Doc.reach_closure] at run
    cases answer : itf.partials doc.closure name with
    | error e =>
      rw [answer] at run
      cases run
      exact ⟨.error e, .noPartials answer, rfl⟩
    | ok pair =>
      obtain ⟨template, closure⟩ := pair
      obtain ⟨_, whole⟩ := parses_ofTemplate template
      have whole_known := templates _ _ _ _ answer
      rw [answer] at run
      dsimp only [Action.run] at run
      split at run
      · cases run
      · rename_i e inner
        cases run
        obtain ⟨done, eval, went⟩ :=
          further (.body _) whole_known whole rfl inner
        cases done with
        | error e' =>
          cases went
          exact ⟨.error e, .partials answer eval .failed, rfl⟩
        | ok done => cases went
      · rename_i out closure' inner
        obtain ⟨done, eval, went⟩ :=
          further (.body _) whole_known whole rfl inner
        cases done with
        | error e => cases went
        | ok done =>
          cases went
          obtain ⟨output, eval_rest, went⟩ := further (.body _) known parses names
            run
          exact ⟨output, .partials answer eval eval_rest, went.mono (Nat.le_succ fuel)⟩
  | deep found is_tag deep =>
    rw [← names, List.length_map] at deep
    rw [process_tag found is_tag, Process.apply, begin_deep deep] at run
    cases run
    exact ⟨_, .fail, rfl⟩
  | @nested _ _ front _ name rest between _ inverted _ _ found is_tag fits inner after =>
    rw [Body.known, Bool.and_eq_true] at known
    rw [← names, List.length_map] at fits
    subst names
    rw [process_tag found is_tag, apply_begin fits, Doc.reach_closure] at run
    cases enter : itf.enter doc.closure name with
    | error e =>
      rw [enter] at run
      cases run
      exact ⟨.error e, .notEntered enter, rfl⟩
    | ok pair =>
      obtain ⟨entered, closure⟩ := pair
      rw [enter] at run
      have after_explained {done : Doc σ} {less : Nat} (lt : less < fuel)
          (run : process itf flags less outer (.inside true between stack done) = some result) :=
        fewer less (by omega) (.body _) known.2 after rfl run
      by_cases same : entered = inverted
      · subst same
        dsimp only at run
        rw [bne_self_eq_false] at run
        obtain ⟨skipped, skip, went⟩ := skip_of_process inner known.1
          rfl run
        cases skipped with
        | error e => exact ⟨.error e, .skipped enter skip .failed, went⟩
        | ok layout =>
          obtain ⟨less, lt, run⟩ := went
          rw [finish_skipped] at run
          obtain ⟨output, eval, went⟩ := after_explained lt run
          exact ⟨output, .skipped enter skip eval, went.mono (by omega)⟩
      · cases inverted with
        | false =>
          rw [Bool.not_eq_false] at same
          subst same
          obtain ⟨done, eval_loop, leads⟩ := further (.loop _) known.1 inner run
          cases done with
          | error e => exact ⟨.error e, .entered enter eval_loop .failed, leads⟩
          | ok done =>
            obtain ⟨less, lt, run⟩ := leads
            obtain ⟨output, eval, went⟩ := after_explained lt run
            exact ⟨output, .entered enter eval_loop eval, went.mono (by omega)⟩
        | true =>
          rw [Bool.not_eq_true] at same
          subst same
          obtain ⟨done, eval_body, went⟩ := further (.body _) known.1 inner
            rfl run
          cases done with
          | error e => exact ⟨.error e, .absent enter eval_body .failed, went⟩
          | ok done =>
            obtain ⟨less, lt, run⟩ := went
            rw [finish_absent] at run
            obtain ⟨output, eval, went⟩ := after_explained lt run
            exact ⟨output, .absent enter eval_body eval, went.mono (by omega)⟩
  | close found is_tag =>
    obtain ⟨frame, stack, rfl, rfl, -⟩ := List.map_eq_cons_iff.mp names
    rw [process_tag found is_tag] at run
    exact ⟨_, .close, fuel, Nat.lt_succ_self fuel, run⟩
  | mismatch found is_tag other =>
    rw [process_tag found is_tag, Process.apply, finish_mismatch (names ▸ other)] at run
    cases run
    exact ⟨_, .fail, rfl⟩

theorem explained
    (templates : ∀ s name template closure, itf.partials s name = .ok (template, closure) →
      (Body.ofTemplate flags template).known) (fuel : Nat) :
    ∀ work : Work, work.known → Explained itf flags fuel work := by
  induction fuel using Nat.strong_induction_on with
  | _ fuel ih =>
    intro work known
    cases work with
    | body b => exact body_explained templates known ih
    | loop b =>
      exact loop_explained (body_explained templates known ih) fun less lt => ih less lt _ known

/-- Where no template changes the delimiters, the results of `process` are the meanings of the
template's tree. -/
theorem process_iff_tree (itf : MustachItf σ) (flags : MustachFlags) (template : List UInt8)
    (closure : σ) (out : List UInt8) (known : (Body.ofTemplate flags template).known)
    (templates : ∀ s name template closure, itf.partials s name = .ok (template, closure) →
      (Body.ofTemplate flags template).known) (result : Except MustachError (List UInt8 × σ)) :
    (Process.init template closure out).Returns itf flags [] result ↔
      ∃ output, Eval itf flags [] (.body (.ofTemplate flags template))
        (.ok ⟨closure, ⟨.blank, []⟩, out⟩) output ∧
        result = output.map fun doc => (doc.out, doc.closure) := by
  constructor
  · rintro ⟨fuel, run⟩
    obtain ⟨_, whole⟩ := parses_ofTemplate template
    obtain ⟨output, eval, went⟩ := explained templates fuel (.body _) known whole rfl run
    refine ⟨output, eval, ?_⟩
    cases output with
    | error e => exact went
    | ok doc => exact went
  · rintro ⟨output, eval, rfl⟩
    exact process_returns_tree itf flags template closure out eval

/-- Sections that repeat as often as the closure says, which is also the value of every name. -/
def countdown : MustachItf Nat where
  put n _ _ := .ok ([48 + UInt8.ofNat n], n)
  enter n _ := .ok (n != 0, n)
  next n := .ok (n - 1 != 0, n - 1)
  leave n := n
  partials n _ := .ok ([], n)

/-- `{{#n}}{{n}};{{/n}}` -/
def repeated : List UInt8 :=
  opening ++ [35, 110] ++ closing ++ opening ++ [110] ++ closing ++ [59] ++ opening ++ [47, 110] ++
    closing

theorem process_iff_tree_repeated :
    ∃ output, Eval countdown ⟨false, false⟩ [] (.body (.ofTemplate ⟨false, false⟩ repeated))
      (.ok ⟨3, ⟨.blank, []⟩, []⟩) output ∧
      .ok ([51, 59, 50, 59, 49, 59], 0) = output.map fun doc => (doc.out, doc.closure) :=
  (process_iff_tree countdown ⟨false, false⟩ repeated 3 [] (by decide)
    (fun _ _ _ _ given => by cases given; decide) (.ok ([51, 59, 50, 59, 49, 59], 0))).mp
    ⟨9, rfl⟩

end Guardwatch.Mustach
