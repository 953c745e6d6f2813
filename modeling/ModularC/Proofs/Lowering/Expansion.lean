import ModularC.Lowering.Surface

/-!
What flattening exposes of the imported modules: the exposed part of their expansion
(`flatten_eq_exposed`).
-/

namespace ModularC

mutual

/-- The elements met reading a module with each resolved import read in place. -/
def Module.expansion : Module → List Element
  | ⟨_, _, es, _⟩ => Element.expansion es

def Element.expansion : List Element → List Element
  | [] => []
  | .import_ i :: es => Import.expansion i ++ Element.expansion es
  | e :: es => e :: Element.expansion es

/-- The expansion of the module an import resolved to; an unresolved import stands for itself. -/
def Import.expansion : Import → List Element
  | ⟨_, _, some m⟩ => Module.expansion m
  | ⟨path, pos, none⟩ => [.import_ ⟨path, pos, none⟩]

end

/-- The path of an unresolved import. -/
def Element.unresolvedPath? : Element → Option String
  | .import_ ⟨path, _, none⟩ => some path
  | _ => none

/-- What an importer sees of an element: preprocessor lines, `#type` names and record forward
declarations as they are, exported typedefs, record and enum definitions, and the prototype of an
exported function; nothing of any other element. -/
def Element.exposed : Element → Option Element
  | .directive line => some (.directive line)
  | .typeDirective name => some (.typeDirective name)
  | .recordForward kind name => some (.recordForward kind name)
  | .typedef t => if t.exported then some (.typedef t) else none
  | .recordDef exported kind name fields =>
    if exported then some (.recordDef exported kind name fields) else none
  | .enumDef exported name items => if exported then some (.enumDef exported name items) else none
  | .function f => if f.exported then some (.function f.forward) else none
  | .import_ _ | .header _ | .link _ | .global _ => none

/-- An element an importer may see: a preprocessor line, a `#type` name, a record forward
declaration, an exported typedef, record or enum definition, or the prototype of an exported
function. Never an import, include, `#link` or variable. -/
def Element.Visible : Element → Prop
  | .directive _ | .typeDirective _ | .recordForward .. => True
  | .typedef t => t.exported = true
  | .recordDef exported .. | .enumDef exported .. => exported = true
  | .function f => f.exported = true ∧ f.body = none
  | .import_ _ | .header _ | .link _ | .global _ => False

theorem Element.visible_of_exposed {e x : Element} (h : e.exposed = some x) : x.Visible := by
  cases e with
  | directive _ | typeDirective _ | recordForward _ _ =>
    simp only [Element.exposed, Option.some.injEq] at h
    subst h
    trivial
  | typedef _ | recordDef _ _ _ _ | enumDef _ _ _ =>
    simp only [Element.exposed, Option.ite_none_right_eq_some, Option.some.injEq] at h
    obtain ⟨hex, rfl⟩ := h
    exact hex
  | function f =>
    simp only [Element.exposed, Option.ite_none_right_eq_some, Option.some.injEq] at h
    obtain ⟨hex, rfl⟩ := h
    exact ⟨hex, rfl⟩
  | import_ _ | header _ | link _ | global _ => cases h

/-- What flattening puts where an element of the module stood: for an import, the exposed part
of its expansion; any other element stays as it is. -/
def Element.inPlace : Element → List Element
  | .import_ i => i.expansion.filterMap Element.exposed
  | e => [e]

/-- The error of the first unresolved import among `xs`, or else `v`. -/
def unresolvedOr (xs v : List Element) : Except Error (List Element) :=
  (xs.findSome? Element.unresolvedPath?).elim (.ok v) fun path => .error (.unresolvedImport path)

theorem unresolvedOr_append (xs ys v w : List Element) :
    unresolvedOr (xs ++ ys) (v ++ w) =
      (unresolvedOr xs v >>= fun a => unresolvedOr ys w >>= fun b => pure (a ++ b)) := by
  unfold unresolvedOr
  rw [List.findSome?_append]
  cases xs.findSome? Element.unresolvedPath? with
  | some path => rfl
  | none =>
    cases ys.findSome? Element.unresolvedPath? with
    | some path => rfl
    | none => rfl

theorem unresolvedOr_bind_pure (xs v : List Element) (f : List Element → List Element) :
    (unresolvedOr xs v >>= fun a => pure (f a)) = unresolvedOr xs (f v) := by
  unfold unresolvedOr
  cases xs.findSome? Element.unresolvedPath? <;> rfl

theorem unresolvedOr_cons {e : Element} (he : e.unresolvedPath? = none) (xs v : List Element) :
    unresolvedOr (e :: xs) v = unresolvedOr xs v := by
  simp [unresolvedOr, he]

theorem Element.surfaceAll_cons_of_ne {e : Element} (he : ∀ i, e ≠ .import_ i)
    (es : List Element) :
    Element.surfaceAll (e :: es) =
      (Element.surfaceAll es >>= fun rest => pure (e.exposed.toList ++ rest)) := by
  cases e with
  | import_ i => exact absurd rfl (he i)
  | typedef t =>
    obtain ⟨exported, base, form⟩ := t
    show (Element.surfaceAll es >>= _) = _
    congr 1
    funext rest
    cases exported <;> rfl
  | function f =>
    obtain ⟨exported, base, form, body⟩ := f
    show (Element.surfaceAll es >>= _) = _
    congr 1
    funext rest
    cases exported <;> rfl
  | recordDef exported _ _ _ | enumDef exported _ _ =>
    show (Element.surfaceAll es >>= _) = _
    congr 1
    funext rest
    cases exported <;> rfl
  | directive _ | typeDirective _ | recordForward _ _ | header _ | link _ | global _ => rfl

mutual

/-- The surface of a module is the exposed part of its expansion, unless the expansion meets an
unresolved import: then it is the error that names the first one. -/
theorem Module.surface_eq : ∀ m : Module,
    m.surface = unresolvedOr m.expansion (m.expansion.filterMap Element.exposed)
  | ⟨_, _, es, _⟩ => Element.surfaceAll_eq es

theorem Element.surfaceAll_eq : ∀ es : List Element,
    Element.surfaceAll es =
      unresolvedOr (Element.expansion es) ((Element.expansion es).filterMap Element.exposed)
  | [] => rfl
  | .import_ i :: es => by
    rw [Element.surfaceAll, Import.surface_eq i, Element.surfaceAll_eq es, Element.expansion,
      List.filterMap_append, unresolvedOr_append]
  | .header d :: es | .directive d :: es | .typeDirective d :: es | .link d :: es
  | .typedef d :: es | .recordForward d _ :: es | .recordDef d _ _ _ :: es
  | .enumDef d _ _ :: es | .function d :: es | .global d :: es => by
    rw [Element.surfaceAll_cons_of_ne (fun _ h => by cases h), Element.surfaceAll_eq es,
      unresolvedOr_bind_pure]
    simp only [Element.expansion]
    rw [unresolvedOr_cons rfl, List.filterMap_cons]
    cases Element.exposed _ <;> rfl

theorem Import.surface_eq : ∀ i : Import,
    i.surface = unresolvedOr i.expansion (i.expansion.filterMap Element.exposed)
  | ⟨_, _, some m⟩ => Module.surface_eq m
  | ⟨_, _, none⟩ => rfl

end

theorem flatten_eq_unresolvedOr (es : List Element) :
    flatten es = unresolvedOr (Element.expansion es) (es.flatMap Element.inPlace) := by
  induction es with
  | nil => rfl
  | cons e es ih =>
    cases e with
    | import_ i =>
      rw [flatten, Import.surface_eq, ih, Element.expansion, List.flatMap_cons,
        unresolvedOr_append]
      rfl
    | _ =>
      simp only [flatten, Element.expansion, List.flatMap_cons, Element.inPlace]
      rw [ih, unresolvedOr_bind_pure, unresolvedOr_cons rfl]
      rfl

/-- Flattening keeps the module's own elements and puts, where each import stood, the exposed
part of that import's expansion, all of it visible to an importer. It fails exactly when the
expansion meets an unresolved import, and names the first one met. -/
theorem flatten_eq_exposed (es : List Element) :
    flatten es = ((Element.expansion es).findSome? Element.unresolvedPath?).elim
        (.ok (es.flatMap Element.inPlace)) (fun path => .error (.unresolvedImport path)) ∧
      ∀ i : Import, ∀ x ∈ (Element.import_ i).inPlace, x.Visible := by
  refine ⟨flatten_eq_unresolvedOr es, fun i x hx => ?_⟩
  obtain ⟨e, -, he⟩ := List.mem_filterMap.mp hx
  exact Element.visible_of_exposed he

/-- An unresolved import below a resolved one is the error. -/
example :
    flatten [.import_ ⟨"outer", ⟨1, 1⟩,
      some ⟨"outer", "/outer.c", [.import_ ⟨"missing", ⟨1, 1⟩, none⟩], []⟩⟩] =
      .error (.unresolvedImport "missing") := rfl

end ModularC
