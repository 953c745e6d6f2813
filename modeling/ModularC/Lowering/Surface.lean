import ModularC.Error
import ModularC.Syntax.Basic

/-!
What an importer sees of a module, its surface, and flattening, which puts the surface of each
resolved import where the import stood.
-/

namespace ModularC

mutual

/-- The surface of a module. -/
def Module.surface : Module → Except Error (List Element)
  | ⟨_, _, es, _⟩ => Element.surfaceAll es

/-- The surface of a list of elements. -/
def Element.surfaceAll : List Element → Except Error (List Element)
  | [] => .ok []
  | .import_ i :: es => do
    let s ← i.surface
    return s ++ (← Element.surfaceAll es)
  | e :: es => do
    let rest ← Element.surfaceAll es
    return match e with
      | .directive _ | .typeDirective _ | .recordForward .. => e :: rest
      | .typedef t => if t.exported then e :: rest else rest
      | .recordDef exported .. | .enumDef exported .. => if exported then e :: rest else rest
      | .function f => if f.exported then .function f.forward :: rest else rest
      | _ => rest

/-- The surface of the module an import resolved to. -/
def Import.surface : Import → Except Error (List Element)
  | ⟨path, _, none⟩ => .error (.unresolvedImport path)
  | ⟨_, _, some m⟩ => m.surface

end

/-- Each import replaced in place by the surface of its module. -/
def flatten : List Element → Except Error (List Element)
  | [] => .ok []
  | .import_ i :: es => do
    let s ← i.surface
    return s ++ (← flatten es)
  | e :: es => do return e :: (← flatten es)

mutual

/-- The type names a module gives its importers: its `#type` names and exported typedefs, and
those its imports give it, in order. -/
def Module.exportedTypeNames : Module → List String
  | ⟨_, _, es, _⟩ => Element.exportedTypeNamesAll es

def Element.exportedTypeNamesAll : List Element → List String
  | [] => []
  | .typeDirective n :: es => n :: Element.exportedTypeNamesAll es
  | .typedef t :: es =>
    (if t.exported then t.name?.toList else []) ++ Element.exportedTypeNamesAll es
  | .import_ ⟨_, _, some m⟩ :: es => m.exportedTypeNames ++ Element.exportedTypeNamesAll es
  | _ :: es => Element.exportedTypeNamesAll es

end

end ModularC
