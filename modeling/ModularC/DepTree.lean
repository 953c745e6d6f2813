import ModularC.Syntax.Basic

/-!
The import tree of a module drawn as text: one line per import in depth-first order, each below
the rails of its ancestors.
-/

namespace ModularC

/-- Whether an element is an import. -/
def Element.isImport : Element → Bool
  | .import_ _ => true
  | _ => false

mutual

/-- The lines below a module, each starting with `rails`. -/
def Module.treeLines (rails : String) : Module → String
  | ⟨_, _, es, _⟩ => Element.treeLines rails es

def Element.treeLines (rails : String) : List Element → String
  | [] => ""
  | .import_ ⟨path, _, target⟩ :: es =>
    let last := !es.any Element.isImport
    let line := rails ++ (if last then "└ " else "├ ")
    let below := rails ++ (if last then "  " else "│ ")
    (match target with
      | some m => line ++ m.name ++ "\n" ++ Module.treeLines below m
      | none => line ++ path ++ "\n") ++ Element.treeLines rails es
  | _ :: es => Element.treeLines rails es

end

/-- The module's import tree, one line per module. -/
def Module.depTree (m : Module) : String := m.name ++ "\n" ++ Module.treeLines "" m

end ModularC
