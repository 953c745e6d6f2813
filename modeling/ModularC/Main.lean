import ModularC.Build

/-!
The command line: `emit`, `deptree` and `build` over a tree read from the working directory and
the standard library's root.
-/

namespace ModularC.Cli

/-- The files and directories below some directory entries, by absolute parts. -/
partial def collect (entries : Array IO.FS.DirEntry) :
    IO (List (List String × String) × List (List String)) := do
  let mut files := []
  let mut dirs := []
  for e in entries do
    let parts := Path.parts e.path.toString
    if ← e.path.isDir then
      dirs := dirs ++ [parts]
      let (fs, ds) ← collect (← e.path.readDir)
      files := files ++ fs
      dirs := dirs ++ ds
    else
      match ← (IO.FS.readFile e.path).toBaseIO with
      | .ok text => files := files ++ [(parts, text)]
      | .error _ => pure ()
  return (files, dirs)

/-- The working directory and the standard library's root, read into a workspace. -/
def load : IO Workspace := do
  let cwd ← IO.currentDir
  let stdlib := (← IO.getEnv "MODC_PATH").filter (· != "")
  let os := ((← IO.getEnv "MODC_TARGET_OS").filter (· != "")).getD "linux"
  let (files, dirs) ← collect (← cwd.readDir)
  let (libFiles, libDirs) ← match stdlib with
    | some s =>
      let root := cwd / s
      if ← root.isDir then collect (← root.readDir) else pure ([], [])
    | none => pure ([], [])
  return ⟨⟨stdlib, os⟩, ⟨[], files ++ libFiles, dirs ++ libDirs⟩, Path.parts cwd.toString⟩

/-- Prints a result, or the error on standard error with a failing status. -/
def finish (r : Except Error String) : IO UInt32 := do
  match r with
  | .ok out =>
    IO.print out
    return 0
  | .error e =>
    IO.eprintln ("modc: " ++ e.message)
    return 1

def usage : String :=
  "usage: modc emit [FILE|-] | modc deptree PATH | modc build PATH [OUTPUT]"

end ModularC.Cli

open ModularC ModularC.Cli in
def main (args : List String) : IO UInt32 := do
  match args with
  | ["emit"] | ["emit", "-"] =>
    let source ← (← IO.getStdin).readToEnd
    finish ((← load).emitSource source)
  | ["emit", file] => finish ((← load).emitFile file)
  | ["deptree", path] => finish ((← load).depTree path)
  | "build" :: path :: rest =>
    match rest with
    | [] | [_] =>
      let w ← load
      finish do
        let t ← w.toC path
        let files := t.units.zipIdx.map fun ((name, _), i) => name ++ "_" ++ toString i ++ ".c"
        let args := compilerArgs files (rest.headD t.name) t.links
        let units := t.units.zip files |>.map fun ((_, c), f) => "/* " ++ f ++ " */\n" ++ c
        return " ".intercalate args ++ "\n" ++ String.join units
    | _ =>
      IO.eprintln usage
      return 2
  | _ =>
    IO.eprintln usage
    return 2
