import Guardwatch.Lib.CInput
import Guardwatch.Lib.FileTree

/-! Removing and making directories in `gfc_fs.c`, over a tree of directories, regular files and
symbolic links. -/

namespace Guardwatch

open Bytes FileTree

/-- The number of links through which a path may lead, and the working directory. -/
structure GfcFs where
  links : Nat
  cwd : Location

/-- The names that `readdir` gives for a directory that was opened by a path: dots and entries, in
any order. An entry may be left out, as one is that has been removed meanwhile, and may come more
than once. -/
structure Readdir where
  names : (path : List UInt8) → FileTree → Location → List (List UInt8)
  listed : ∀ path t l, ∀ name ∈ names path t l,
    name = dot ∨ name = dotDot ∨ ∃ entry ∈ t.children l, entry.bytes = name

/-- The type in the `st_mode` of `struct stat`. -/
inductive FileMode
  | reg
  | dir
  | other
deriving DecidableEq

namespace GfcFs

/-- `access(path, F_OK) == 0`. -/
def access (fs : GfcFs) (t : FileTree) (path : List UInt8) : Bool :=
  (resolve t fs.links fs.cwd path).isSome

/-- `stat`, which leads through links, and `none` where it fails. -/
def stat (fs : GfcFs) (t : FileTree) (path : List UInt8) : Option FileMode :=
  ((resolve t fs.links fs.cwd path).bind t.node).map fun
    | .file => .reg
    | .dir => .dir
    | .link _ => .other

/-- The directory that `opendir` opens. -/
def opendir (fs : GfcFs) (t : FileTree) (path : List UInt8) : Option Location :=
  (resolve t fs.links fs.cwd path).filter fun l => t.node l = some .dir

end GfcFs

/-- The turn of the loop for a name that `readdir` gives, and `none` where the path of the entry is
longer than `subpath`. -/
def iterateEntry (iterate : List UInt8 → FileTree → Option FileTree) (path : List UInt8)
    (t : FileTree) (name : List UInt8) : Option FileTree :=
  if name = dot ∨ name = dotDot then some t
  else if path.length + 1 + name.length < 2048 then iterate (path ++ slash :: name) t
  else none

/-- The walk through a tree. Where `stat` fails, `attrib` is what the stack holds. Each
level makes the path longer, so that there are less than `subpath` has bytes. -/
def gfcFsIterate (fs : GfcFs) (readdir : Readdir) (attrib : List UInt8 → FileMode)
    (resolve : List UInt8 → FileTree → FileTree) :
    (depth : Nat) → List UInt8 → FileTree → Option FileTree
  | 0, _, _ => none
  | depth + 1, path, t =>
    match (fs.stat t path).getD (attrib path) with
    | .reg => some (resolve path t)
    | .dir =>
      match fs.opendir t path with
      | none => some t
      | some dir =>
        ((readdir.names path t dir).foldlM
          (iterateEntry (gfcFsIterate fs readdir attrib resolve depth) path) t).map (resolve path)
    | .other => some (resolve path t)

def gfcFsRm_ (fs : GfcFs) (path : List UInt8) (t : FileTree) : FileTree :=
  if fs.access t path then
    match fs.stat t path with
    | some .reg => t.remove fs.links fs.cwd path
    | some .dir => t.rmdir fs.links fs.cwd path
    | some .other => t
    | none => t
  else t

def gfcFsRm (fs : GfcFs) (readdir : Readdir) (attrib : List UInt8 → FileMode) (t : FileTree)
    (path : CText) : Option FileTree :=
  if fs.access t path.bytes then
    gfcFsIterate fs readdir attrib (gfcFsRm_ fs) 2049 path.bytes t
  else some t

/-! ### Directories -/

/-- `strcat` to a buffer of `n` bytes, and `none` where it has no room. -/
def strcat (n : Nat) (dest src : List UInt8) : Option (List UInt8) :=
  if dest.length + src.length < n then some (dest ++ src) else none

/-- `strtok` for slashes, from the place that the last call has left: the token, the buffer with a
NUL behind the token, and the place that this call leaves. -/
def strtok (buffer : List UInt8) (save : Nat) : Option (Nat × List UInt8 × Nat) :=
  let token := save + ((buffer.drop save).takeWhile (· = slash)).length
  let stop := token + ((buffer.drop token).takeWhile fun c => c ≠ slash ∧ c ≠ 0).length
  if stop = token then none
  else if buffer[stop]? = some slash then some (token, buffer.set stop 0, stop + 1)
  else some (token, buffer, stop)

/-- The loop over the tokens, of which there are less than bytes in the buffer. -/
def mkdirsLoop (fs : GfcFs) : (turns : Nat) → Option (Nat × List UInt8 × Nat) →
    (dir : List UInt8) → FileTree → Option FileTree
  | 0, _, _, _ => none
  | _ + 1, none, _, t => some t
  | turns + 1, some (token, subpath, save), dir, t => do
    let dir ← strcat 4096 dir (CInput.cString (subpath.drop token))
    let t := if fs.access t dir then t else t.mkdir fs.links fs.cwd dir
    let dir ← strcat 4096 dir [slash]
    mkdirsLoop fs turns (strtok subpath save) dir t

/-- `none` is a path that is longer than the buffers. -/
def gfcFsMkdirs (fs : GfcFs) (t : FileTree) (path : CText) : Option FileTree :=
  if fs.access t path.bytes then some t
  else if path.bytes.length < 4096 then
    let subpath := path.bytes ++ List.replicate (4096 - path.bytes.length) 0
    let token := strtok subpath 0
    let subpath := token.elim subpath fun result => result.2.1
    let dir := if subpath[0]? = some slash then [slash] else []
    mkdirsLoop fs 4096 token dir t
  else none

end Guardwatch
