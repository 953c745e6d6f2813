import ModularC.Error
import ModularC.Syntax.Print

/-!
Declarations put before their uses, once each: a stable sort by tier, then deduplication.
-/

namespace ModularC

namespace Element

/-- The tier an element is hoisted to. -/
def tier : Element → Nat
  | .header _ | .directive _ => 0
  | .recordForward .. => 1
  | .typedef _ => 2
  | .recordDef .. | .enumDef .. => 3
  | .function f => if f.body.isNone then 4 else 5
  | _ => 5

/-- What a definition defines: `typedef NAME`, `struct TAG`, `union TAG` or `enum TAG`. -/
def definedName? : Element → Option String
  | .typedef t => t.name?.map ("typedef " ++ ·)
  | .recordDef _ kind name _ => some (kind.spelling ++ " " ++ name)
  | .enumDef _ name _ => some ("enum " ++ name)
  | _ => none

/-- Declarations that may appear twice: includes, typedefs, record forwards and definitions,
enums and prototypes. -/
def isDeduplicated : Element → Bool
  | .header _ | .typedef _ | .recordForward .. | .recordDef .. | .enumDef .. => true
  | .function f => f.body.isNone
  | _ => false

end Element

/-- The elements in tier order, keeping the order within each tier. -/
def hoist (es : List Element) : List Element :=
  (List.range 6).flatMap fun t => es.filter (·.tier == t)

/-- A prototype appended for every function definition. -/
def addPrototypes (es : List Element) : List Element :=
  es ++ es.filterMap fun
    | .function f => if f.body.isSome then some (.function f.forward) else none
    | _ => none

/-- Deduplication after the texts `seen` and the definitions `defined` (name and text). -/
def dedupAfter (seen : List String) (defined : List (String × String)) :
    List Element → Except Error (List Element)
  | [] => .ok []
  | e :: es =>
    if !e.isDeduplicated then (e :: ·) <$> dedupAfter seen defined es
    else
      let text := e.render
      if seen.contains text then dedupAfter seen defined es
      else
        match e.definedName? with
        | none => (e :: ·) <$> dedupAfter (text :: seen) defined es
        | some name =>
          match defined.lookup name with
          | some first => .error (.conflictingDefinition name first text)
          | none => (e :: ·) <$> dedupAfter (text :: seen) ((name, text) :: defined) es

/-- Drops every deduplicated element whose text an earlier one has; two texts for one defined
name are a conflict. -/
def dedup (es : List Element) : Except Error (List Element) := dedupAfter [] [] es

end ModularC
