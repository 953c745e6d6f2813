import ModularC.Token.Basic

/-!
Why a compilation stops. Each cause carries what its message needs; `Error.message` writes the
message. Errors inside a file name the file and the line and column.
-/

namespace ModularC

/-- Why the file system refused a path. -/
inductive IoFailure where
  /-- A component of the path does not exist. -/
  | notFound
  /-- A component of the path that must be a directory is a file. -/
  | notADirectory
deriving DecidableEq, Repr, Inhabited

def IoFailure.message : IoFailure → String
  | .notFound => "No such file or directory (os error 2)"
  | .notADirectory => "Not a directory (os error 20)"

inductive Error where
  /-- The scanner found a malformed lexeme. -/
  | lex (file : String) (pos : Position) (message : String)
  /-- A token that the grammar does not allow where it stands. -/
  | unexpected (file : String) (pos : Position) (expected found context : String)
  /-- A type name declared a second time. -/
  | redefinition (file : String) (pos : Position) (name : String)
  /-- `pub` on a variable, which only types and functions may carry. -/
  | pubVariable (file : String) (pos : Position) (name : String)
  /-- An import that names no module, written in a file of the directory `dir`. -/
  | importResolution (path dir : String)
  /-- Modules that import each other: the chain starts and ends with the same module. -/
  | importCycle (chain : List String)
  /-- An import that was never resolved to a module. -/
  | unresolvedImport (path : String)
  /-- Two different texts for one typedef or tag. -/
  | conflictingDefinition (name first second : String)
  | io (failure : IoFailure)
deriving DecidableEq, Repr, Inhabited

/-- The environment variable that names the standard library's root. -/
def stdlibVariable : String := "MODC_PATH"

def Error.message : Error → String
  | .lex file pos message => file ++ ":" ++ pos.render ++ ": " ++ message
  | .unexpected file pos expected found context =>
    file ++ ":" ++ pos.render ++ ": expected " ++ expected ++ ", found " ++ found ++
      "\n    near: " ++ context
  | .redefinition file pos name =>
    file ++ ":" ++ pos.render ++ ": redefinition of type name `" ++ name ++ "`"
  | .pubVariable file pos name =>
    file ++ ":" ++ pos.render ++ ": variable `" ++ name ++ "` cannot be marked `pub`"
  | .importResolution path dir =>
    "cannot resolve import \"" ++ path ++ "\" from " ++ dir ++ "; check that " ++
      stdlibVariable ++ " points at the standard library"
  | .importCycle chain => "import cycle: " ++ " -> ".intercalate chain
  | .unresolvedImport path => "import \"" ++ path ++ "\" was never resolved"
  | .conflictingDefinition name first second =>
    "conflicting definitions of `" ++ name ++ "`:\n" ++ first ++ "\n" ++ second
  | .io failure => "I/O error: " ++ failure.message

end ModularC
