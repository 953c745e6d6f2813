import ModularC.Error
import ModularC.Path

/-!
A directory tree held in memory, mounted at an absolute place; paths are followed one part at a
time, and the place a path reaches is its canonical form.
-/

namespace ModularC

/-- What lies at a place. -/
inductive Node where
  | file (text : String)
  | dir
deriving DecidableEq, Repr, Inhabited

/-- Files with their text and directories, each by its place below the mount. -/
structure Tree where
  mount : List String
  files : List (List String × String)
  dirs : List (List String)

namespace Tree

/-- The text of an absolute place. -/
def render (place : List String) : String := "/" ++ "/".intercalate place

/-- The canonical path of the mount. -/
def root (t : Tree) : String := render t.mount

/-- What lies at a place, if anything. -/
def node? (t : Tree) (place : List String) : Option Node :=
  if place.isPrefixOf t.mount then some .dir
  else if t.mount.isPrefixOf place then
    let rel := place.drop t.mount.length
    match t.files.lookup rel with
    | some text => some (.file text)
    | none =>
      if t.dirs.any (rel.isPrefixOf ·) || t.files.any (fun f => rel.isPrefixOf f.1) then some .dir
      else none
  else none

/-- Follows parts of a path from a place where a node lies. -/
def follow (t : Tree) (place : List String) (node : Node) :
    List String → Except IoFailure (List String × Node)
  | [] => .ok (place, node)
  | part :: parts =>
    match node with
    | .file _ => .error .notADirectory
    | .dir =>
      if part == "." then follow t place .dir parts
      else if part == ".." then follow t place.dropLast .dir parts
      else
        match t.node? (place ++ [part]) with
        | some n => follow t (place ++ [part]) n parts
        | none => .error .notFound

/-- The place a path names, read from the working directory `cwd`, and what lies there. -/
def walk (t : Tree) (cwd : List String) (path : String) : Except IoFailure (List String × Node) :=
  if path.isEmpty then .error .notFound
  else
    let start := if path.startsWith "/" then [] else cwd
    let r := follow t start .dir ((Path.pieces path).filter (· != ""))
    match r with
    | .ok (_, .file _) => if path.endsWith "/" then .error .notADirectory else r
    | _ => r

/-- The canonical path a path names. -/
def canonicalize (t : Tree) (cwd : List String) (path : String) : Except IoFailure String :=
  (t.walk cwd path).map fun (place, _) => render place

def isDir (t : Tree) (cwd : List String) (path : String) : Bool :=
  match t.walk cwd path with
  | .ok (_, .dir) => true
  | _ => false

def isFile (t : Tree) (cwd : List String) (path : String) : Bool :=
  match t.walk cwd path with
  | .ok (_, .file _) => true
  | _ => false

/-- The text of the file a path names. -/
def read (t : Tree) (cwd : List String) (path : String) : Except IoFailure String :=
  match t.walk cwd path with
  | .ok (_, .file text) => .ok text
  | .ok (_, .dir) => .error .notFound
  | .error e => .error e

/-- The names of the files directly in the directory at `place`. -/
def fileNames (t : Tree) (place : List String) : List String :=
  if t.mount.isPrefixOf place then
    let rel := place.drop t.mount.length
    t.files.filterMap fun (p, _) =>
      match p.getLast? with
      | some name => if p.dropLast == rel then some name else none
      | none => none
  else []

end Tree

end ModularC
