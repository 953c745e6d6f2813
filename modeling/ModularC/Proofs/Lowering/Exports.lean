import ModularC.Lowering.Basic
import ModularC.Proofs.Lowering.Surface

/-!
The type names a linked module exports are the names its surface declares.
-/

namespace ModularC

mutual

/-- Every import of the element, if it is one, resolved to a linked module. -/
def Element.Linked : Element → Prop
  | .import_ i => i.Linked
  | _ => True

def Import.Linked : Import → Prop
  | ⟨_, _, some m⟩ => m.Linked
  | ⟨_, _, none⟩ => False

/-- Every import of the module resolved, through the modules its imports resolved to. -/
def Module.Linked : Module → Prop
  | ⟨_, _, es, _⟩ => Element.AllLinked es

def Element.AllLinked : List Element → Prop
  | [] => True
  | e :: es => e.Linked ∧ Element.AllLinked es

end

theorem Element.allLinked_iff {es : List Element} : Element.AllLinked es ↔ ∀ e ∈ es, e.Linked := by
  induction es with
  | nil => simp [Element.AllLinked]
  | cons e es ih => simp [Element.AllLinked, ih]

theorem Module.linked_iff {m : Module} : m.Linked ↔ ∀ e ∈ m.elements, e.Linked := by
  obtain ⟨name, path, es, names⟩ := m
  exact Element.allLinked_iff

theorem Element.linked_of_target {e : Element}
    (h : ∀ i, e = .import_ i → ∃ m, i.target = some m ∧ m.Linked) : e.Linked := by
  cases e with
  | import_ i =>
    obtain ⟨m, ht, hm⟩ := h i rfl
    obtain ⟨path, pos, target⟩ := i
    subst ht
    exact hm
  | _ => trivial

/-- The type names an element declares: the name of a `#type` line or of a typedef. -/
def Element.declaredTypeNames : Element → List String
  | .typeDirective n => [n]
  | .typedef t => t.name?.toList
  | _ => []

mutual

theorem Element.surfaceAll_declaredTypeNames {es : List Element} (h : Element.AllLinked es) :
    (Element.surfaceAll es).map (·.flatMap Element.declaredTypeNames) =
      .ok (Element.exportedTypeNamesAll es) := by
  match es, h with
  | [], _ => rfl
  | e :: es, h =>
    have hrest := Element.surfaceAll_declaredTypeNames h.2
    cases hr : Element.surfaceAll es with
    | error err => rw [hr] at hrest; cases hrest
    | ok rest =>
      rw [hr, Except.map, Except.ok.injEq] at hrest
      match e, h with
      | .import_ ⟨_, _, some m⟩, h =>
        have hm := Module.surface_declaredTypeNames h.1
        cases hs : m.surface with
        | error err => rw [hs] at hm; cases hm
        | ok s =>
          rw [hs, Except.map, Except.ok.injEq] at hm
          simp only [Element.surfaceAll, Import.surface, hs, hr, bind, Except.bind, pure,
            Except.pure, Except.map, Element.exportedTypeNamesAll, List.flatMap_append, hm, hrest]
      | .import_ ⟨_, _, none⟩, h => exact absurd h.1 id
      | .typedef t, _ =>
        by_cases ht : t.exported <;>
          simp [Element.surfaceAll, hr, bind, Except.bind, pure, Except.pure, Except.map, ht,
            Element.exportedTypeNamesAll, Element.declaredTypeNames, hrest]
      | .header _, _ | .directive _, _ | .typeDirective _, _ | .link _, _
      | .recordForward .., _ | .recordDef .., _ | .enumDef .., _ | .function _, _
      | .global _, _ =>
        simp [Element.surfaceAll, hr, bind, Except.bind, pure, Except.pure, Except.map,
          apply_ite (List.flatMap Element.declaredTypeNames), Element.exportedTypeNamesAll,
          Element.declaredTypeNames, FunctionDef.forward, hrest]
termination_by sizeOf es

theorem Module.surface_declaredTypeNames {m : Module} (h : m.Linked) :
    m.surface.map (·.flatMap Element.declaredTypeNames) = .ok m.exportedTypeNames := by
  match m, h with
  | ⟨_, _, es, _⟩, h => exact Element.surfaceAll_declaredTypeNames h
termination_by sizeOf m

end

/-- The type names a linked module exports are exactly those its surface declares, in order: its
`#type` names and the names of its exported typedefs, with those of its imports in their place. -/
theorem Module.exportedTypeNames_eq_surface {m : Module} (h : m.Linked) :
    ∃ s, m.surface = .ok s ∧ m.exportedTypeNames = s.flatMap Element.declaredTypeNames := by
  have hs := Module.surface_declaredTypeNames h
  cases hsurf : m.surface with
  | error err =>
    rw [hsurf] at hs
    cases hs
  | ok s =>
    rw [hsurf, Except.map, Except.ok.injEq] at hs
    exact ⟨s, rfl, hs.symm⟩

/-- A library with a `#type` line, an exported and a private typedef. -/
def exportsLibrary : Module :=
  ⟨"lib", "lib.c",
    [.typeDirective "FILE",
     .typedef ⟨true, ⟨[.keyword .int]⟩, ⟨[], .name "shown_t", []⟩⟩,
     .typedef ⟨false, ⟨[.keyword .int]⟩, ⟨[], .name "hidden_t", []⟩⟩], ["FILE", "shown_t", "hidden_t"]⟩

/-- A module that imports the library and exports a typedef of its own. -/
def exportsImporter : Module :=
  ⟨"main", "main.c",
    [.import_ ⟨"lib", ⟨1, 1⟩, some exportsLibrary⟩,
     .typedef ⟨true, ⟨[.keyword .long]⟩, ⟨[], .name "own_t", []⟩⟩], ["own_t"]⟩

theorem exportsImporter_exportedTypeNames_eq_surface :
    exportsImporter.Linked ∧ ∃ s, exportsImporter.surface = .ok s ∧
      exportsImporter.exportedTypeNames = s.flatMap Element.declaredTypeNames := by
  have h : exportsImporter.Linked := by
    simp [exportsImporter, exportsLibrary, Module.Linked, Element.AllLinked, Element.Linked,
      Import.Linked]
  exact ⟨h, Module.exportedTypeNames_eq_surface h⟩

end ModularC
