/-!
Paths as slash-separated text: their named parts, file names, module names and extensions.
-/

namespace ModularC.Path

/-- The pieces of a path between its slashes, empty ones included. -/
def pieces (p : String) : List String :=
  (p.toList.splitOn '/').map String.ofList

/-- The named parts of a path, in order. -/
def parts (p : String) : List String :=
  (pieces p).filter fun s => s != "" && s != "."

/-- The last named part, unless it is `..`. -/
def fileName? (p : String) : Option String :=
  match (parts p).getLast? with
  | some ".." => none
  | other => other

/-- The file name up to its first dot; empty when there is no file name. -/
def moduleName (p : String) : String :=
  match ((fileName? p).getD "").toList.splitOn '.' with
  | n :: _ => String.ofList n
  | [] => ""

/-- `rel` read from `base`: `rel` itself when it is absolute, otherwise joined with one slash. -/
def join (base rel : String) : String :=
  if rel.startsWith "/" || base.isEmpty then rel
  else if base.endsWith "/" then base ++ rel
  else base ++ "/" ++ rel

/-- The text after the file name's last dot; none without a dot, or when the only dot starts the
name. -/
def extension? (p : String) : Option String :=
  match fileName? p with
  | none => none
  | some name =>
    match (name.toList.splitOn '.').reverse with
    | ext :: before@(_ :: _) =>
      if (['.'].intercalate before.reverse).isEmpty then none else some (String.ofList ext)
    | _ => none

/-- The path without its last part: what comes before the last slash. -/
def parent (p : String) : String :=
  match (pieces p).reverse with
  | _ :: before@(_ :: _) =>
    let s := "/".intercalate before.reverse
    if s.isEmpty then "/" else s
  | _ => ""

end ModularC.Path
