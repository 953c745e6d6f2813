import ModularC.Resolve
import ModularC.Lowering.Basic
import ModularC.Syntax.Print
import ModularC.DepTree

/-!
Compiling a tree of sources to C: every module resolution reached is lowered, imports first,
and the C compiler is called on the units with the libraries they link.
-/

namespace ModularC

/-- The C of every module reachable from a root, imports first: the root's name, each module's
name and C text, and the libraries to link, each once. -/
structure CProgram where
  name : String
  units : List (String × String)
  links : List String

/-- A tree of sources, the settings to resolve it with, and the working directory. -/
structure Workspace where
  config : Config
  tree : Tree
  cwd : List String

namespace Workspace

def resolver (w : Workspace) : Resolver := Resolver.start w.config w.tree w.cwd

/-- Resolves the file or package a path names, and the resolver after it. -/
def resolve (w : Workspace) (path : String) : Except Error (Module × Resolver) :=
  (Resolver.resolve (Resolver.fuelFor w.tree) path).run w.resolver

/-- Lowers every module that resolving `path` reached. -/
def toC (w : Workspace) (path : String) : Except Error CProgram := do
  let (root, r) ← w.resolve path
  let lowered ← r.order.mapM fun m => do return (m.name, ← m.lower)
  return {
    name := root.name
    units := lowered.map fun (name, l) => (name, l.module.render)
    links := (lowered.flatMap (·.2.links)).eraseDups }

/-- The C text of the file or package a path names. -/
def emitFile (w : Workspace) (path : String) : Except Error String := do
  let (m, _) ← w.resolve path
  return (← m.lower).module.render

/-- The C text of source text named `<stdin>` whose imports are read from the working directory. -/
def emitSource (w : Workspace) (source : String) : Except Error String := do
  let (m, _) ← (Resolver.resolveSource (Resolver.fuelFor w.tree) source "<stdin>"
    (Tree.render w.cwd)).run w.resolver
  return (← m.lower).module.render

/-- The import tree of the file or package a path names. -/
def depTree (w : Workspace) (path : String) : Except Error String := do
  let (m, _) ← w.resolve path
  return m.depTree

end Workspace

/-- The warning flags every call of the C compiler gets. -/
def compilerFlags : List String :=
  ["-Wall", "-Wextra", "-Werror", "-pedantic", "-pedantic-errors", "-fmax-errors=3", "-g"]

/-- The C compiler's arguments: the flags, the files, the output, and the libraries. -/
def compilerArgs (files : List String) (output : String) (links : List String) : List String :=
  compilerFlags ++ files ++ ["-o", output] ++ links.map ("-l" ++ ·)

end ModularC
