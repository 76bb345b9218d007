import Guardwatch.Lib.CInput
import Mathlib.Data.List.DropRight

/-! The template engine of `mustach.c`: one pass over the template, with a stack of the sections
that are open. -/

namespace Guardwatch.Mustach

open CInput

def mustachMaxDepth : Nat := 256
def mustachMaxLength : Nat := 4096
def mustachMaxDelimLength : Nat := 8

inductive MustachError
  | unexpectedEnd | emptyTag | tagTooLong | badSeparators | tooDeep | closing | badUnescapeTag
  /-- What a callback returns. -/
  | user (code : Nat)
deriving DecidableEq

/-- `Mustach_With_Colon` and `Mustach_With_EmptyTag`. -/
structure MustachFlags where
  withColon : Bool
  withEmptyTag : Bool

/-- The callbacks, with their closure. -/
structure MustachItf (σ : Type) where
  put : σ → List UInt8 → Bool → Except MustachError (List UInt8 × σ)
  enter : σ → List UInt8 → Except MustachError (Bool × σ)
  next : σ → Except MustachError (Bool × σ)
  leave : σ → σ
  partials : σ → List UInt8 → Except MustachError (List UInt8 × σ)

/-- `stdalone`: the line has a text (0), has only white space so far (1), or only white space
besides tags that write nothing (2). -/
inductive Stdalone
  | text | blank | tag
deriving DecidableEq

/-- `stdalone`, and the white space of `pref`. -/
structure Layout where
  stdalone : Stdalone
  pref : List UInt8
deriving DecidableEq

def opening : List UInt8 := [123, 123]
def closing : List UInt8 := [125, 125]

/-! ### The text in front of a tag -/

/-- How the search of an opening delimiter ends: at the end of the template, or behind the
delimiter, with the line in front of it that is not written yet. -/
inductive Scanned
  | ended (out : List UInt8)
  | opening (out : List UInt8) (layout : Layout) (line rest : List UInt8)

def Scanned.after (out : List UInt8) : Scanned → Scanned
  | .ended more => .ended (out ++ more)
  | .opening more layout line rest => .opening (out ++ more) layout line rest

/-- What is written at the end of a line. A line with nothing in it has no prefix. -/
def Layout.endLine (outer : List UInt8) (enabled : Bool) (layout : Layout)
    (line ending : List UInt8) : List UInt8 :=
  if layout.stdalone ≠ .tag ∧ enabled then
    (if line = [] then [] else outer ++ layout.pref) ++ line ++ ending
  else []

/-- A line shows with its first text behind a tag that it is not the tag's own. -/
def Layout.shows (enabled : Bool) (layout : Layout) : Bool :=
  decide (layout.stdalone = .tag) && enabled

def Layout.show (outer : List UInt8) (enabled : Bool) (layout : Layout) : List UInt8 × Layout :=
  if layout.shows enabled then (outer ++ layout.pref, ⟨.text, []⟩) else ([], layout)

/-- The search of the opening delimiter; `line` is the part of the line that has been read. -/
def scanText (outer opstr : List UInt8) (enabled : Bool) (layout : Layout) (line : List UInt8) :
    List UInt8 → Scanned
  | [] => .ended (layout.endLine outer enabled line [])
  | c :: text =>
    if c = Bytes.newline then
      (scanText outer opstr enabled ⟨.blank, []⟩ [] text).after
        (layout.endLine outer enabled line [Bytes.newline])
    else if isspace c then scanText outer opstr enabled layout (line ++ [c]) text
    else
      let (out, layout) := layout.show outer enabled
      if opstr.isPrefixOf (c :: text) then
        .opening out layout line ((c :: text).drop opstr.length)
      else (scanText outer opstr enabled ⟨.text, layout.pref⟩ (line ++ [c]) text).after out

/-- The layout behind a tag, and what is written in front of it. -/
def reachTag (outer : List UInt8) (enabled alone : Bool) (layout : Layout) (line : List UInt8) :
    List UInt8 × Layout :=
  let pref := if enabled then line else []
  if alone ∧ layout.stdalone ≠ .text then ([], ⟨.tag, pref⟩)
  else if enabled then (outer ++ pref, ⟨.text, []⟩)
  else ([], ⟨.text, pref⟩)

/-! ### Tags -/

inductive Tag
  | comment
  | delimiters (opstr clstr : List UInt8)
  | beginSection (inverted : Bool) (name : List UInt8)
  | endSection (name : List UInt8)
  | partials (name : List UInt8)
  | replacement (name : List UInt8) (escape : Bool)

/-- A tag, whether it can be alone on its line, and the template behind it. -/
structure ReadTag where
  tag : Tag
  alone : Bool
  rest : List UInt8

/-- The search of the closing delimiter: the text in front of it and behind it. -/
def findDelimiter (clstr : List UInt8) : List UInt8 → Option (List UInt8 × List UInt8)
  | [] => none
  | c :: text =>
    if clstr.isPrefixOf (c :: text) then some ([], (c :: text).drop clstr.length)
    else (findDelimiter clstr text).map fun (front, rest) => (c :: front, rest)

def trim (text : List UInt8) : List UInt8 := (text.dropWhile isspace).rdropWhile isspace

def getName (flags : MustachFlags) (text : List UInt8) : Except MustachError (List UInt8) :=
  let name := trim text
  if name = [] ∧ ¬flags.withEmptyTag then .error .emptyTag
  else if name.length > mustachMaxLength then .error .tagTooLong
  else .ok name

/-- The new delimiters between two `=`. -/
def readDelimiters (content : List UInt8) : Except MustachError Tag :=
  if content.length < 5 ∨ content.getLast? ≠ some 61 then .error .badSeparators
  else
    let text := trim content.tail.dropLast
    let opstr := text.takeWhile (! isspace ·)
    let clstr := (text.drop opstr.length).dropWhile isspace
    if opstr = text ∨ opstr.length > mustachMaxDelimLength then .error .badSeparators
    else if clstr = [] ∨ clstr.length > mustachMaxDelimLength then .error .badSeparators
    else .ok (.delimiters opstr clstr)

/-- `exclude_first`; without a first byte the length wraps around, and what is read then is not
defined. -/
def excludeFirst : List UInt8 → Option (List UInt8)
  | [] => none
  | _ :: text => some text

/-- A triple brace: its last brace is behind the closing delimiter where that is of braces, and
otherwise in front of it. -/
def readUnescape (clstr content rest : List UInt8) :
    Except MustachError (List UInt8 × List UInt8) :=
  if clstr.all (· = 125) then
    match rest with
    | [] => .error .badUnescapeTag
    | c :: rest => if c = 125 then .ok (content, rest) else .error .badUnescapeTag
  else if content.getLast? = some 125 then .ok (content.dropLast, rest)
  else .error .badUnescapeTag

/-- A tag with a name. -/
def namedTag (flags : MustachFlags) (tag : List UInt8 → Tag) (alone : Bool)
    (rest text : List UInt8) :
    Except MustachError ReadTag :=
  (getName flags text).map fun name => ⟨tag name, alone, rest⟩

/-- The tag behind an opening delimiter. -/
def readTag (flags : MustachFlags) (clstr text : List UInt8) :
    Option (Except MustachError ReadTag) :=
  match findDelimiter clstr text with
  | none => some (.error .unexpectedEnd)
  | some (content, rest) =>
    match (content ++ clstr).head? with
    | some 58 =>
      if flags.withColon then
        (excludeFirst content).map (namedTag flags (.replacement · true) false rest)
      else some (namedTag flags (.replacement · true) false rest content)
    | some 33 => some (.ok ⟨.comment, true, rest⟩)
    | some 61 => some ((readDelimiters content).map (⟨·, true, rest⟩))
    | some 123 =>
      match readUnescape clstr content rest with
      | .error e => some (.error e)
      | .ok (content, rest) =>
        (excludeFirst content).map (namedTag flags (.replacement · false) false rest)
    | some 38 => (excludeFirst content).map (namedTag flags (.replacement · false) false rest)
    | some 94 => (excludeFirst content).map (namedTag flags (.beginSection true) true rest)
    | some 35 => (excludeFirst content).map (namedTag flags (.beginSection false) true rest)
    | some 47 => (excludeFirst content).map (namedTag flags .endSection true rest)
    | some 62 => (excludeFirst content).map (namedTag flags .partials true rest)
    | _ => some (namedTag flags (.replacement · true) false rest content)

/-! ### The main loop -/

/-- An element of the array `stack`; `again` is the template behind the opening tag. -/
structure Frame where
  name : List UInt8
  again : List UInt8
  enabled : Bool
  entered : Bool

/-- What the callbacks and the lines change: the closure, the layout, and the file. -/
structure Doc (σ : Type) where
  closure : σ
  layout : Layout
  out : List UInt8

/-- The variables of `process`. -/
structure Process (σ : Type) where
  template : List UInt8
  opstr : List UInt8
  clstr : List UInt8
  enabled : Bool
  stack : List Frame
  doc : Doc σ

/-- What a tag leads to: an error, the rest of the template, or a template to process first. -/
inductive Action (σ : Type)
  | fail (e : MustachError)
  | resume (st : Process σ)
  | call (template : List UInt8) (st : Process σ)

variable {σ : Type}

def Doc.write (doc : Doc σ) (text : List UInt8) (layout : Layout) : Doc σ :=
  { doc with out := doc.out ++ text, layout }

def Doc.put (itf : MustachItf σ) (name : List UInt8) (escape : Bool) (doc : Doc σ) :
    Except MustachError (Doc σ) :=
  (itf.put doc.closure name escape).map fun (text, closure) =>
    { doc with closure, out := doc.out ++ text }

def Process.begin (itf : MustachItf σ) (inverted : Bool) (name : List UInt8) (st : Process σ) :
    Action σ :=
  if st.stack.length = mustachMaxDepth then .fail .tooDeep
  else if st.enabled then
    match itf.enter st.doc.closure name with
    | .error e => .fail e
    | .ok (entered, closure) =>
      .resume { st with
        stack := ⟨name, st.template, true, entered⟩ :: st.stack
        enabled := entered != inverted
        doc := { st.doc with closure } }
  else .resume { st with stack := ⟨name, st.template, false, false⟩ :: st.stack }

/-- The section of the frame is left. -/
def Process.leave (itf : MustachItf σ) (frame : Frame) (stack : List Frame) (st : Process σ) :
    Process σ :=
  { st with
    stack
    enabled := frame.enabled
    doc := { st.doc with
      closure := if frame.enabled ∧ frame.entered then itf.leave st.doc.closure
        else st.doc.closure } }

def Process.finish (itf : MustachItf σ) (name : List UInt8) (st : Process σ) : Action σ :=
  match st.stack with
  | [] => .fail .closing
  | frame :: stack =>
    if name ≠ frame.name then .fail .closing
    else if st.enabled ∧ frame.entered then
      match itf.next st.doc.closure with
      | .error e => .fail e
      | .ok (true, closure) =>
        .resume { st with template := frame.again, doc := { st.doc with closure } }
      | .ok (false, closure) =>
        .resume (Process.leave itf frame stack { st with doc := { st.doc with closure } })
    else .resume (st.leave itf frame stack)

/-- The branches for the tags. -/
def Process.apply (itf : MustachItf σ) (st : Process σ) : Tag → Action σ
  | .comment => .resume st
  | .delimiters opstr clstr => .resume { st with opstr, clstr }
  | .beginSection inverted name => st.begin itf inverted name
  | .endSection name => st.finish itf name
  | .partials name =>
    if st.enabled then
      match itf.partials st.doc.closure name with
      | .error e => .fail e
      | .ok (template, closure) => .call template { st with doc := { st.doc with closure } }
    else .resume st
  | .replacement name escape =>
    if st.enabled then
      match st.doc.put itf name escape with
      | .error e => .fail e
      | .ok doc => .resume { st with doc }
    else .resume st

/-- The variables at the start. -/
def Process.init (template : List UInt8) (closure : σ) (out : List UInt8) : Process σ where
  template
  opstr := opening
  clstr := closing
  enabled := true
  stack := []
  doc := ⟨closure, ⟨.blank, []⟩, out⟩

/-- `process`, with at most `fuel` rounds of its loop on each level of partials. `outer` is what
the prefixes of the levels above write. The result is the file and the closure; the file of a
failed call is thrown away by `mustach_mem`. -/
def process (itf : MustachItf σ) (flags : MustachFlags) :
    Nat → List UInt8 → Process σ → Option (Except MustachError (List UInt8 × σ))
  | 0, _, _ => none
  | fuel + 1, outer, st =>
    match scanText outer st.opstr st.enabled st.doc.layout [] st.template with
    | .ended out =>
      some (if st.stack.isEmpty then .ok (st.doc.out ++ out, st.doc.closure)
        else .error .unexpectedEnd)
    | .opening out layout line rest =>
      match readTag flags st.clstr rest with
      | none => none
      | some (.error e) => some (.error e)
      | some (.ok read) =>
        let (shown, layout) := reachTag outer st.enabled read.alone layout line
        let st := { st with
          template := read.rest
          doc := st.doc.write (out ++ shown) layout }
        match st.apply itf read.tag with
        | .fail e => some (.error e)
        | .resume st => process itf flags fuel outer st
        | .call template st =>
          match process itf flags fuel (outer ++ layout.pref)
              (.init template st.doc.closure st.doc.out) with
          | none => none
          | some (.error e) => some (.error e)
          | some (.ok (out, closure)) =>
            process itf flags fuel outer { st with doc := { st.doc with closure, out } }

end Guardwatch.Mustach
