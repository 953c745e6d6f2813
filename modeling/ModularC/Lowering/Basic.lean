import ModularC.Lowering.Defer
import ModularC.Lowering.Records
import ModularC.Lowering.Headers
import ModularC.Lowering.Order
import ModularC.Lowering.Surface

/-!
Lowering a module to plain C: imports flattened, defers replayed, records split off typedefs,
headers inferred, prototypes added, and the whole hoisted and deduplicated.
-/

namespace ModularC

/-- A module ready to print as C, and the libraries it asks to link, each once in order. -/
structure Lowered where
  module : Module
  links : List String

/-- The library a `#link` line names. -/
def Element.linkName? : Element → Option String
  | .link n => some n
  | _ => none

/-- Whether lowering keeps an element: `#link` and `#type` lines have no C text. -/
def Element.keptInC : Element → Bool
  | .link _ | .typeDirective _ => false
  | _ => true

/-- An element with the defers of its function replayed. -/
def Element.replayDefers : Element → Element
  | .function f => .function f.replayDefers
  | e => e

/-- The C elements of a flattened list: no `#link` or `#type` line, defers replayed, and records
split off their typedefs. -/
def lowerElements (flat : List Element) : List Element :=
  extractRecords ((flat.filter Element.keptInC).map Element.replayDefers)

/-- Lowers a module to plain C. -/
def Module.lower (m : Module) : Except Error Lowered := do
  let flat ← flatten m.elements
  let links := (flat.filterMap Element.linkName?).eraseDups
  let split := lowerElements flat
  let withHeaders := (inferHeaders split).map .header ++ split
  let elements ← dedup (hoist (addPrototypes withHeaders))
  return ⟨{ m with elements }, links⟩

/-- The lowering passes that can run one at a time. -/
inductive Pass where
  | flatten | surface | headers | prototypes | hoist | dedup
deriving DecidableEq, Repr

/-- Runs one pass over elements; header inference also gives the headers it put in front. -/
def Pass.apply : Pass → List Element → Except Error (List Element × Option (List String))
  | .flatten, es => return (← ModularC.flatten es, none)
  | .surface, es => return (← Element.surfaceAll es, none)
  | .headers, es =>
    let hs := inferHeaders es
    return (hs.map .header ++ es, some hs)
  | .prototypes, es => return (addPrototypes es, none)
  | .hoist, es => return (ModularC.hoist es, none)
  | .dedup, es => return (← ModularC.dedup es, none)

end ModularC
