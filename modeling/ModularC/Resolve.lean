import ModularC.Token.Scan
import ModularC.Token.Survey
import ModularC.Syntax.Parse
import ModularC.Lowering.Surface
import ModularC.Files.Package

/-!
Resolving a module and everything it imports, each place once, cached by its canonical path.
-/

namespace ModularC

/-- Where resolution looks: the standard library's root, if any, and the target system. -/
structure Config where
  stdlibRoot : Option String
  targetOs : String

/-- Resolution so far: the modules finished, by canonical path and in order, and the places being
resolved, outermost first. -/
structure Resolver where
  config : Config
  tree : Tree
  cwd : List String
  cache : List (String × Module)
  order : List Module
  inProgress : List String

/-- A resolution step: changes the resolver and may fail. -/
abbrev Resolution := StateT Resolver (Except Error)

namespace Resolver

/-- A resolver with nothing resolved yet, working in the directory `cwd` of `tree`. -/
def start (config : Config) (tree : Tree) (cwd : List String) : Resolver :=
  ⟨config, tree, cwd, [], [], []⟩

/-- Fuel for any chain of nested resolutions: every place being resolved is a different place of
the tree or above its mount, and each nesting takes four steps. -/
def fuelFor (t : Tree) : Nat :=
  4 * (t.files.foldl (fun n f => n + f.1.length + 1) 0 +
    t.dirs.foldl (fun n d => n + d.length + 1) 0 + t.mount.length + 2)

/-- An import's targets set from the modules its path resolved to. -/
def linkImports (targets : List (String × Module)) (m : Module) : Module :=
  { m with elements := m.elements.map fun
    | .import_ i => .import_ { i with target := targets.lookup i.path }
    | e => e }

/-- Package members merged in order; an import of a module already imported is dropped. -/
def merge (name path : String) (parts : List Module) : Module :=
  let step := fun (acc : List Element × List String) (e : Element) =>
    match e with
    | .import_ i =>
      let key := (i.target.map (·.path)).getD i.path
      if acc.2.contains key then acc else (acc.1 ++ [e], key :: acc.2)
    | _ => (acc.1 ++ [e], acc.2)
  let elements := (parts.flatMap (·.elements)).foldl step ([], [])
  ⟨name, path, elements.1, parts.flatMap (·.typeNames)⟩

/-- A lexed member waiting to be parsed: its path, tokens, the type names it declares, and the
modules its imports resolved to. -/
structure Member where
  path : String
  tokens : List Token
  ownNames : List String
  imports : List (String × Module)

/-- The files a canonical path is read from, a package's members or the file itself, and the
directory the imports written in them are read from. -/
def plan (r : Resolver) (canon : String) : List String × String :=
  match r.tree.walk r.cwd canon with
  | .ok (place, .dir) => (r.tree.members place r.config.targetOs, canon)
  | _ => ([canon], Path.parent canon)

/-- The candidate an import base names: the base itself when it is a directory or a `.c` file,
else the base with `.c` appended when that is a file. -/
def candidate (r : Resolver) (base : String) : Option String :=
  if r.tree.isDir r.cwd base || (r.tree.isFile r.cwd base && Path.extension? base == some "c") then
    some base
  else if r.tree.isFile r.cwd (base ++ ".c") then some (base ++ ".c")
  else none

/-- Where an import is looked for, in order. -/
def bases (r : Resolver) (path fromDir : String) : List String :=
  if path.startsWith "." then [Path.join fromDir path]
  else (r.config.stdlibRoot.map (Path.join · path)).toList ++ [Path.join fromDir path, path]

/-- Parses each member with the names its imports export and its siblings declare. -/
def parseMembers (pending : List Member) : Except Error (List Module) :=
  let imported := pending.flatMap fun m => m.imports.flatMap fun (_, d) => d.exportedTypeNames
  (pending.zipIdx.mapM fun (m, i) => do
    let siblings := (pending.zipIdx.filter (·.2 != i)).flatMap (·.1.ownNames)
    let names := (TypeNames.withStandard.supply imported).supply siblings
    let parsed ← Module.ofTokens m.tokens names m.path
    return linkImports m.imports parsed)

mutual

/-- Resolves the file or package a path names. -/
def resolve : Nat → String → Resolution Module
  | 0, _ => do throw (.importCycle (← get).inProgress)
  | fuel + 1, path => do
    let r ← get
    let canon ← match r.tree.canonicalize r.cwd path with
      | .ok c => pure c
      | .error f => throw (.io f)
    if let some m := r.cache.lookup canon then return m
    if let some start := r.inProgress.idxOf? canon then
      throw (.importCycle (r.inProgress.drop start ++ [canon]))
    set { r with inProgress := r.inProgress ++ [canon] }
    let m ← load fuel canon
    modify fun r => { r with
      inProgress := r.inProgress.dropLast, cache := (canon, m) :: r.cache, order := r.order ++ [m] }
    return m

/-- Reads a package's members, or a single file, and builds its module. -/
def load : Nat → String → Resolution Module
  | 0, _ => do throw (.importCycle (← get).inProgress)
  | fuel + 1, canon => do
    let r ← get
    let (files, dir) := r.plan canon
    let sources ← files.mapM fun f =>
      match r.tree.read r.cwd f with
      | .ok text => pure (f, text)
      | .error e => throw (.io e)
    build fuel canon dir sources

/-- Surveys every member, resolves their imports, parses them and merges them. -/
def build : Nat → String → String → List (String × String) → Resolution Module
  | 0, _, _, _ => do throw (.importCycle (← get).inProgress)
  | fuel + 1, path, dir, sources => do
    let pending ← sources.mapM fun (file, source) => do
      let tokens := tokenize source
      let imports ← (surveyImports tokens).eraseDups.mapM fun p => do
        return (p, ← resolveImport fuel p dir)
      return (⟨file, tokens, surveyTypeNames tokens, imports⟩ : Member)
    match parseMembers pending with
    | .ok parts => return merge (Path.moduleName path) path parts
    | .error e => throw e

/-- Resolves an import written in a file of the directory `fromDir`. -/
def resolveImport : Nat → String → String → Resolution Module
  | 0, _, _ => do throw (.importCycle (← get).inProgress)
  | fuel + 1, path, fromDir => do
    let r ← get
    match (r.bases path fromDir).findSome? r.candidate with
    | some c => resolve fuel c
    | none => throw (.importResolution path fromDir)

end

/-- Resolves source text that is not in the tree, named `path`, whose imports are read from
`dir`. The result is listed but not cached. -/
def resolveSource (fuel : Nat) (source path dir : String) : Resolution Module := do
  let m ← build fuel path dir [(path, source)]
  modify fun r => { r with order := r.order ++ [m] }
  return m

end Resolver

end ModularC
