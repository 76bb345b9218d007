import Guardwatch.Mustach.Simulation

/-! Templates with JSON values: `mustach-json-c.c`, and `mustach-wrap.c` without extensions. -/

namespace Guardwatch.Mustach

open CInput

inductive JsonType
  | null | boolean | double | int | object | array | string
deriving DecidableEq

/-- What the code asks json-c about its values. -/
structure JsonC (α : Type) where
  null : α
  getType : α → JsonType
  objectGetEx : α → List UInt8 → Option α
  /-- The elements of an array. -/
  items : α → List α
  getBoolean : α → Bool
  getString : α → List UInt8
  toJsonString : α → List UInt8

/-- An element of `stack` in `struct expl`. -/
structure Level (α : Type) where
  cont : List α
  obj : α
  index : Nat
  count : Nat

/-- `struct expl`: the element of `stack` at `depth`, and those below it. -/
structure Expl (α : Type) where
  top : Level α
  below : List (Level α)

variable {α : Type}

/-! ### Names -/

def dot : UInt8 := 46

/-- A key of a name up to its dots, and the name behind them. -/
def getkey : List UInt8 → List UInt8 × List UInt8
  | [] => ([], [])
  | [c] => if c = dot then ([], []) else ([c], [])
  | c :: d :: name =>
    if c = dot then ([], (d :: name).dropWhile (· = dot))
    else if c = 92 ∧ (d = dot ∨ d = 92) then (getkey name).map (d :: ·) id
    else (getkey (d :: name)).map (c :: ·) id

/-- At most `fuel` keys of a name. -/
def keys : Nat → List UInt8 → List (List UInt8)
  | 0, _ => []
  | _ + 1, [] => []
  | fuel + 1, c :: name => (getkey (c :: name)).1 :: keys fuel (getkey (c :: name)).2

/-- `sel` of the wrapper, in the objects of the levels from the top down; a dot is the top one. -/
def select (json : JsonC α) (objs : List α) (name : List UInt8) : Option α :=
  let name := CInput.cString name
  if name = [dot] then objs.head?
  else
    match keys name.length name with
    | [] => none
    | key :: more =>
      (objs.findSome? (json.objectGetEx · key)).bind fun o => more.foldlM json.objectGetEx o

/-! ### The callbacks -/

def Expl.objs (e : Expl α) : List α := (e.top :: e.below).map Level.obj

/-- `start`. -/
def Expl.start (root : α) : Expl α := ⟨⟨[], root, 0, 1⟩, []⟩

def Expl.push (e : Expl α) (level : Level α) : Expl α := ⟨level, e.top :: e.below⟩

def Expl.enter (json : JsonC α) (e : Expl α) (name : List UInt8) :
    Except MustachError (Bool × Expl α) :=
  match select json e.objs name with
  | none => .ok (false, e)
  | some o =>
    if e.below.length + 1 ≥ mustachMaxDepth then .error .tooDeep
    else if json.getType o = .array then
      match json.items o with
      | [] => .ok (false, e)
      | obj :: more => .ok (true, e.push ⟨obj :: more, obj, 0, (obj :: more).length⟩)
    else if json.getType o = .object ∨ json.getBoolean o then .ok (true, e.push ⟨[], o, 0, 1⟩)
    else .ok (false, e)

def Expl.next (json : JsonC α) (e : Expl α) : Except MustachError (Bool × Expl α) :=
  if e.below.length ≤ 0 then .error .closing
  else
    let index := e.top.index + 1
    if index ≥ e.top.count then .ok (false, { e with top := { e.top with index } })
    else .ok (true, { e with top := { e.top with index, obj := e.top.cont.getD index json.null } })

def Expl.leave (e : Expl α) : Expl α :=
  match e.below with
  | [] => e
  | level :: below => ⟨level, below⟩

/-- `get` of a value, up to its first NUL. -/
def textOf (json : JsonC α) (o : α) : List UInt8 :=
  CInput.cString (match json.getType o with
    | .string => json.getString o
    | .null => []
    | _ => json.toJsonString o)

/-- `getoptional`. -/
def getoptional (json : JsonC α) (objs : List α) (name : List UInt8) : Option (List UInt8) :=
  (select json objs name).map (textOf json)

/-- What `emit` writes for a byte that it escapes. -/
def escapeByte (c : UInt8) : List UInt8 :=
  if c = 60 then [38, 108, 116, 59]
  else if c = 62 then [38, 103, 116, 59]
  else if c = 38 then [38, 97, 109, 112, 59]
  else if c = 34 then [38, 113, 117, 111, 116, 59]
  else [c]

/-- `emit`, with escapes for markup. -/
def emit (buffer : List UInt8) (escape : Bool) : List UInt8 :=
  if escape then buffer.flatMap escapeByte else buffer

def partialExtension : List UInt8 := CText.utf8 ".mustache"

/-- `get_partial_from_file`, where `files` has the contents of the files that can be read. A file
without contents is one that cannot be read. -/
def getPartialFromFile (files : List UInt8 → Option (List UInt8)) (name : List UInt8) :
    Option (List UInt8) :=
  let path := CInput.cString name
  ((files path).orElse fun _ => files (path ++ partialExtension)).filter (· ≠ [])

/-- The callbacks of the wrapper with those of json-c. -/
def mustachJsonCItf (json : JsonC α) (files : List UInt8 → Option (List UInt8)) :
    MustachItf (Expl α) where
  put e name escape := .ok (emit ((getoptional json e.objs name).getD []) escape, e)
  enter := Expl.enter json
  next := Expl.next json
  leave := Expl.leave
  partials e name :=
    .ok (match getPartialFromFile files name with
      | some text => CInput.cString text
      | none => (getoptional json e.objs name).getD [], e)

def noExtensions : MustachFlags := ⟨false, false⟩

/-- `mustach_json_c_mem` without extensions, with at most `fuel` rounds. -/
def mustachJsonCMem (json : JsonC α) (files : List UInt8 → Option (List UInt8)) (fuel : Nat)
    (template : List UInt8) (root : α) : Option (Except MustachError (List UInt8)) :=
  (process (mustachJsonCItf json files) noExtensions fuel []
    (.init template (.start root) [])).map fun result => result.map Prod.fst

/-- json-c for values that are all strings. -/
def stringValues : JsonC (List UInt8) where
  null := []
  getType _ := .string
  objectGetEx _ _ := none
  items _ := []
  getBoolean text := !text.isEmpty
  getString text := text
  toJsonString text := text

/-- `{{#.}}({{.}}){{/.}}` -/
def parenthesized : List UInt8 :=
  opening ++ [35, 46] ++ closing ++ [40] ++ opening ++ [46] ++ closing ++ [41] ++ opening ++
    [47, 46] ++ closing

end Guardwatch.Mustach
