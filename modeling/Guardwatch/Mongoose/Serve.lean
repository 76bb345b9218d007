import Guardwatch.Mongoose.Chunked

/-! `mg_serve_http`: the file that a request gets, with the options of `gw_httpd_serve`. There are
no rewrites, no list of addresses, no authorization domain and no WebDAV. -/

namespace Guardwatch.Mongoose

open CInput

/-- `parse_uri_component` up to a slash: the component, and what is behind the slash. -/
def parseUriComponent (s : List UInt8) : List UInt8 × List UInt8 :=
  (s.takeWhile (· ≠ 47), (s.dropWhile (· ≠ 47)).tail)

/-- Back to the slash before the last component that is written. -/
def backtrack (d : List UInt8) : List UInt8 :=
  let d := if 1 < d.length ∧ d.getLast? = some 47 then d.dropLast else d
  (d.reverse.dropWhile (· ≠ 47)).reverse

/-- The loop of `mg_normalize_uri_path`, which has written `d` and reads `s`. -/
def normalizeComponents : Nat → List UInt8 → List UInt8 → List UInt8
  | 0, _, d => d
  | fuel + 1, s, d =>
    if s = [] then d
    else
      let (component, next) := parseUriComponent s
      if component = [46] then normalizeComponents fuel next d
      else if component = [46, 46] then normalizeComponents fuel next (backtrack d)
      else normalizeComponents fuel next (d ++ s.take (s.length - next.length))

def mgNormalizeUriPath (uri : List UInt8) : Option (List UInt8) :=
  if uri.head? ≠ some 47 then none
  else
    let d := normalizeComponents uri.length uri []
    some (if d = [] then [47] else d)

/-- `HEXTOI` of a digit. -/
def hextoi (c : UInt8) : UInt8 := if isdigit (tolower c) then tolower c - 48 else tolower c - 87

/-- `mg_url_decode` to a buffer with room for `room` bytes and a NUL. -/
def mgUrlDecode : List UInt8 → Nat → Option (List UInt8)
  | [], _ => some []
  | _ :: _, 0 => none
  | c :: src, room + 1 =>
    if c = 37 then
      match src with
      | a :: b :: src =>
        if isxdigit a ∧ isxdigit b then
          (mgUrlDecode src room).map ((hextoi a <<< 4 ||| hextoi b) :: ·)
        else none
      | _ => none
    else (mgUrlDecode src room).map (c :: ·)

/-- What `stat` finds. -/
inductive FileKind
  | regular
  | directory
  | other
deriving DecidableEq

/-- What the server asks of the file system: the kind of a file, and what `mg_is_not_modified` finds
of the headers `If-None-Match` and `If-Modified-Since`. -/
structure Files where
  stat : List UInt8 → Option FileKind
  etagIs : List UInt8 → List UInt8 → Bool
  unmodifiedSince : List UInt8 → List UInt8 → Bool

/-- The path without its last name; the first `root` bytes stay. -/
def parentPath (root : Nat) (lp : List UInt8) : List UInt8 :=
  lp.take root ++ ((lp.drop root).reverse.dropWhile (· ≠ 47)).reverse.dropLast

/-- What `mg_uri_to_local_path` gives: 0, or a path and the rest of the URI. -/
inductive LocalPath
  | refused
  | found (path remainder : List UInt8)
deriving DecidableEq

/-- A component in a buffer of `size` bytes that begins with `lp`: the path with it, `none` within
where it is refused, and `none` where a byte is written behind the buffer. -/
def addComponent (root size : Nat) (lp component : List UInt8) : Option (Option (List UInt8)) :=
  if component = [] then some (some lp)
  else if lp.length + component.length ≥ size then none
  else
    match mgUrlDecode component (size - lp.length - 2) with
    | none | some [] => some none
    | some name =>
      if name = [46] then some (some lp)
      else if name = [46, 46] then some (some (parentPath root lp))
      else if name.contains 0 || name.contains 47 then some none
      else some (some (lp ++ 47 :: name))

/-- The loop of `mg_uri_to_local_path`: `before` is the byte in front of the rest of the URI. -/
def localComponents (files : Files) (root size : Nat) :
    Nat → UInt8 → List UInt8 → List UInt8 → Bool → Option LocalPath
  | 0, _, _, _, _ => none
  | fuel + 1, before, u, lp, exists_ =>
    let exists_ := exists_ && (files.stat lp).isSome
    if exists_ ∧ files.stat lp = some .regular then
      some (.found lp (if before = 47 then 47 :: u else u))
    else if u = [] then some (.found lp [])
    else
      let (component, next) := parseUriComponent u
      match addComponent root size lp component with
      | none => none
      | some none => some .refused
      | some (some lp) =>
        let before := (u.take (u.length - next.length)).getLast?.getD before
        localComponents files root size fuel before next lp exists_

/-- The document root without a slash at its end. -/
def localRoot (documentRoot : List UInt8) : List UInt8 :=
  if documentRoot.getLast? = some 47 then documentRoot.dropLast else documentRoot

/-- `mg_uri_to_local_path`; `none` where a byte is written behind the buffer, or where an assertion
fails. -/
def mgUriToLocalPath (files : Files) (documentRoot uri : List UInt8) : Option LocalPath :=
  if documentRoot = [] then none
  else
    let size := documentRoot.length + uri.length + 1
    let lp := localRoot documentRoot
    match uri with
    | [] => some (.found lp [])
    | before :: u => localComponents files lp.length size (uri.length + 1) before u lp true

/-- The two sides of the first separator in a pattern. -/
def splitPattern (separator : UInt8) (pattern : List UInt8) : Option (List UInt8 × List UInt8) :=
  if pattern.contains separator then
    some (pattern.takeWhile (· ≠ separator), (pattern.dropWhile (· ≠ separator)).tail)
  else none

/-- The lengths `len`, `len - 1`, …, 0 up to the first one where the rest of the pattern matches. -/
def matchLengths (rest : Nat → Nat) : Nat → Nat
  | 0 => rest 0
  | len + 1 => if rest (len + 1) = 0 then matchLengths rest len else rest (len + 1) + (len + 1)

/-- The loop of `mg_match_prefix_n`, behind `j` bytes that match; `sub` is the recursive call. -/
def matchFrom (sub : List UInt8 → List UInt8 → Nat) : List UInt8 → List UInt8 → Nat → Nat
  | [], _, j => j
  | p :: _, [], j => if p = 36 then j else 0
  | p :: ps, c :: cs, j =>
    if p = 63 then matchFrom sub ps cs (j + 1)
    else if p = 42 then
      let str := c :: cs
      let (ps, len) :=
        if ps.head? = some 42 then (ps.tail, str.length) else (ps, (str.takeWhile (· ≠ 47)).length)
      if ps = [] ∨ ps = [36] then j + len
      else
        let res := matchLengths (fun len => sub ps (str.drop len)) len
        if res = 0 then 0 else j + res
    else if tolower p ≠ tolower c then 0
    else matchFrom sub ps cs (j + 1)

/-- `mg_match_prefix_n`, for a pattern shorter than `fuel`. -/
def mgMatchPrefixN : Nat → List UInt8 → List UInt8 → Nat
  | 0, _, _ => 0
  | fuel + 1, pattern, str =>
    match (splitPattern 124 pattern).orElse fun _ => splitPattern 44 pattern with
    | some (first, second) =>
      let res := mgMatchPrefixN fuel first str
      if res > 0 then res else mgMatchPrefixN fuel second str
    | none => matchFrom (mgMatchPrefixN fuel) pattern str 0

def mgMatchPrefix (pattern str : List UInt8) : Nat :=
  mgMatchPrefixN (pattern.length + 1) pattern str

def perDirectoryAuthFile : List UInt8 := CText.utf8 ".htpasswd"
def cgiFilePattern : List UInt8 := CText.utf8 "**.cgi$|**.php$"
def ssiPattern : List UInt8 := CText.utf8 "**.shtml$|**.shtm$"

/-- The entries of `index_files`. -/
def indexFiles : List (List UInt8) :=
  ["index.html", "index.htm", "index.shtml", "index.cgi", "index.php"].map CText.utf8

/-- `mg_find_index_file`. -/
def mgFindIndexFile (files : Files) (path : List UInt8) : Option (List UInt8) :=
  (indexFiles.map fun name => path ++ 47 :: name).find? fun file =>
    files.stat file = some .regular

/-- The name behind the last slash. -/
def lastName (path : List UInt8) : List UInt8 := (path.reverse.takeWhile (· ≠ 47)).reverse

/-- `mg_is_file_hidden`. -/
def mgIsFileHidden (path : List UInt8) : Bool :=
  mgMatchPrefix perDirectoryAuthFile (lastName path) == perDirectoryAuthFile.length

def methodMkcol : List UInt8 := CText.utf8 "MKCOL"
def methodOptions : List UInt8 := CText.utf8 "OPTIONS"
def ifNoneMatchName : List UInt8 := CText.utf8 "If-None-Match"
def ifModifiedSinceName : List UInt8 := CText.utf8 "If-Modified-Since"

/-- `mg_is_creation_request`. -/
def mgIsCreationRequest (method : List UInt8) : Bool := method == methodMkcol || method == methodPut

/-- `mg_is_not_modified`. -/
def mgIsNotModified (files : Files) (hm : HttpHead) (file : List UInt8) : Bool :=
  match mgGetHttpHeader hm ifNoneMatchName with
  | some hdr => files.etagIs hdr.bytes file
  | none =>
    match mgGetHttpHeader hm ifModifiedSinceName with
    | some hdr => files.unmodifiedSince hdr.text file
    | none => false

/-- What the server does with a request. -/
inductive Served
  | error (code : Nat)
  | moved (location : List UInt8)
  | cgi (file pathInfo : List UInt8)
  | options
  | notModified
  | ssi (file : List UInt8)
  | file (path : List UInt8)
deriving DecidableEq

/-- `mg_http_serve_file2`. -/
def mgHttpServeFile2 (path : List UInt8) : Served :=
  if mgMatchPrefix ssiPattern path > 0 then .ssi path else .file path

/-- `mg_send_http_file`, for a URI that is normalized. -/
def mgSendHttpFile (files : Files) (hm : HttpHead) (uri path pathInfo : List UInt8) : Served :=
  let exists_ := (files.stat path).isSome
  let isDirectory := files.stat path == some .directory
  let indexFile := if isDirectory then mgFindIndexFile files path else none
  let file := indexFile.getD path
  let isCgi := mgMatchPrefix cgiFilePattern file > 0
  if isDirectory ∧ uri.getLast? ≠ some 47 then .moved (uri ++ [47])
  else if pathInfo ≠ [] ∧ !isCgi then .error 501
  else if isCgi then .cgi file pathInfo
  else if (!exists_ || mgIsFileHidden path) ∧ !mgIsCreationRequest hm.method.bytes then .error 404
  else if hm.method.bytes = methodOptions then .options
  else if isDirectory ∧ indexFile = none then .error 403
  else if mgIsNotModified files hm file then .notModified
  else mgHttpServeFile2 file

/-- `mg_serve_http`; `none` where a byte is written behind a buffer, or where an assertion fails. -/
def mgServeHttp (files : Files) (documentRoot : List UInt8) (hm : HttpHead) : Option Served :=
  match mgNormalizeUriPath hm.uri.bytes with
  | none => some (.error 400)
  | some uri =>
    (mgUriToLocalPath files documentRoot uri).map fun
      | .refused => .error 404
      | .found path remainder => mgSendHttpFile files hm uri path remainder

/-- `server_web_root`, which `gw_app_start` makes of `resources_path`. -/
def serverWebRoot (resourcesPath : List UInt8) : List UInt8 := resourcesPath ++ CText.utf8 "/www"

end Guardwatch.Mongoose
