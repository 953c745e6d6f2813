import ModularC.Lowering.Basic
import ModularC.Proofs.Syntax.WellFormed

/-!
What flattening brings in: only declarations an importer may see, and none of their bodies.
-/

namespace ModularC

theorem Except.bind_eq_ok {ε α β : Type} {x : Except ε α} {f : α → Except ε β} {b : β}
    (h : x >>= f = .ok b) : ∃ a, x = .ok a ∧ f a = .ok b := by
  cases x with
  | error e => cases h
  | ok a => exact ⟨a, rfl, h⟩

/-- The kinds a surface holds. -/
def Element.isSurfaceKind : Element → Bool
  | .directive _ | .typeDirective _ | .recordForward .. | .typedef _ | .recordDef .. | .enumDef .. =>
    true
  | .function f => f.body.isNone
  | _ => false

theorem Element.wellFormed_forward {f : FunctionDef} (h : (Element.function f).WellFormed) :
    (Element.function f.forward).WellFormed ∧ (Element.function f.forward).isSurfaceKind = true :=
  ⟨h, by simp [Element.isSurfaceKind, FunctionDef.forward]⟩

theorem Element.surfaceAll_cons {e : Element} {es s : List Element} (he : ∀ i, e ≠ .import_ i)
    (h : Element.surfaceAll (e :: es) = .ok s) :
    ∃ rest, Element.surfaceAll es = .ok rest ∧ (s = rest ∨ ∃ x, s = x :: rest ∧
      ((x = e ∧ e.isSurfaceKind = true) ∨ ∃ f, e = .function f ∧ x = .function f.forward)) := by
  cases e with
  | import_ i => exact absurd rfl (he i)
  | function f =>
    obtain ⟨rest, hrest, h⟩ := Except.bind_eq_ok h
    simp only [pure, Except.pure, Except.ok.injEq] at h
    refine ⟨rest, hrest, ?_⟩
    split at h
    · exact .inr ⟨_, h.symm, .inr ⟨f, rfl, rfl⟩⟩
    · exact .inl h.symm
  | typedef t =>
    obtain ⟨rest, hrest, h⟩ := Except.bind_eq_ok h
    simp only [pure, Except.pure, Except.ok.injEq] at h
    refine ⟨rest, hrest, ?_⟩
    split at h
    · exact .inr ⟨_, h.symm, .inl ⟨rfl, rfl⟩⟩
    · exact .inl h.symm
  | recordDef exported kind name fields | enumDef exported name items =>
    obtain ⟨rest, hrest, h⟩ := Except.bind_eq_ok h
    simp only [pure, Except.pure, Except.ok.injEq] at h
    refine ⟨rest, hrest, ?_⟩
    split at h
    · exact .inr ⟨_, h.symm, .inl ⟨rfl, rfl⟩⟩
    · exact .inl h.symm
  | directive _ | typeDirective _ | recordForward _ _ =>
    obtain ⟨rest, hrest, h⟩ := Except.bind_eq_ok h
    simp only [pure, Except.pure, Except.ok.injEq] at h
    exact ⟨rest, hrest, .inr ⟨_, h.symm, .inl ⟨rfl, rfl⟩⟩⟩
  | header _ | link _ | global _ =>
    obtain ⟨rest, hrest, h⟩ := Except.bind_eq_ok h
    simp only [pure, Except.pure, Except.ok.injEq] at h
    exact ⟨rest, hrest, .inl h.symm⟩

mutual

theorem Element.surfaceAll_mem {es s : List Element} (h : Element.surfaceAll es = .ok s)
    (hwf : Element.AllWellFormed es) : ∀ x ∈ s, x.WellFormed ∧ x.isSurfaceKind = true := by
  match es, h, hwf with
  | [], h, _ =>
    simp only [Element.surfaceAll, Except.ok.injEq] at h
    simp [← h]
  | .import_ i :: es, h, hwf =>
    obtain ⟨si, hi, h⟩ := Except.bind_eq_ok h
    obtain ⟨srest, hrest, h⟩ := Except.bind_eq_ok h
    cases h
    simp only [Element.AllWellFormed, Element.WellFormed] at hwf
    intro x hx
    rcases List.mem_append.mp hx with hx | hx
    · exact Import.surface_mem hi hwf.1 x hx
    · exact Element.surfaceAll_mem hrest hwf.2 x hx
  | .header d :: es, h, hwf | .directive d :: es, h, hwf | .typeDirective d :: es, h, hwf
  | .link d :: es, h, hwf | .typedef d :: es, h, hwf | .recordForward d _ :: es, h, hwf
  | .recordDef d _ _ _ :: es, h, hwf | .enumDef d _ _ :: es, h, hwf | .function d :: es, h, hwf
  | .global d :: es, h, hwf =>
    obtain ⟨rest, hrest, hs⟩ := Element.surfaceAll_cons (by nofun) h
    have hall := Element.surfaceAll_mem hrest hwf.2
    intro x hx
    rcases hs with rfl | ⟨y, rfl, hy⟩
    · exact hall x hx
    rcases List.mem_cons.mp hx with rfl | hx
    · rcases hy with ⟨rfl, hk⟩ | ⟨f, hf, rfl⟩
      · exact ⟨hwf.1, hk⟩
      · exact Element.wellFormed_forward (hf ▸ hwf.1)
    · exact hall x hx
termination_by sizeOf es

theorem Import.surface_mem {i : Import} {s : List Element} (h : i.surface = .ok s)
    (hwf : i.WellFormed) : ∀ x ∈ s, x.WellFormed ∧ x.isSurfaceKind = true := by
  match i, h, hwf with
  | ⟨_, _, none⟩, h, _ => cases h
  | ⟨_, _, some ⟨_, _, es, _⟩⟩, h, hwf =>
    exact Element.surfaceAll_mem h hwf
termination_by sizeOf i

end

theorem mem_flatten {es flat : List Element} (h : flatten es = .ok flat) {x : Element}
    (hx : x ∈ flat) :
    (x ∈ es ∧ ∀ i, x ≠ .import_ i) ∨ ∃ i s, .import_ i ∈ es ∧ i.surface = .ok s ∧ x ∈ s := by
  induction es generalizing flat with
  | nil =>
    simp only [flatten, Except.ok.injEq] at h
    simp [← h] at hx
  | cons e es ih =>
    cases e with
    | import_ i =>
      obtain ⟨si, hi, h⟩ := Except.bind_eq_ok h
      obtain ⟨rest, hrest, h⟩ := Except.bind_eq_ok h
      cases h
      rcases List.mem_append.mp hx with hx | hx
      · exact .inr ⟨i, si, List.mem_cons_self, hi, hx⟩
      · rcases ih hrest hx with ⟨hmem, hne⟩ | ⟨j, s, hj, hs, hxs⟩
        · exact .inl ⟨List.mem_cons_of_mem _ hmem, hne⟩
        · exact .inr ⟨j, s, List.mem_cons_of_mem _ hj, hs, hxs⟩
    | _ =>
      obtain ⟨rest, hrest, h⟩ := Except.bind_eq_ok h
      cases h
      rcases List.mem_cons.mp hx with rfl | hx
      · exact .inl ⟨List.mem_cons_self, nofun⟩
      · rcases ih hrest hx with ⟨hmem, hne⟩ | ⟨j, s, hj, hs, hxs⟩
        · exact .inl ⟨List.mem_cons_of_mem _ hmem, hne⟩
        · exact .inr ⟨j, s, List.mem_cons_of_mem _ hj, hs, hxs⟩

theorem flatten_wellFormed {es flat : List Element} (h : flatten es = .ok flat)
    (hwf : ∀ e ∈ es, e.WellFormed) : ∀ x ∈ flat, x.WellFormed ∧ ∀ i, x ≠ .import_ i := by
  intro x hx
  rcases mem_flatten h hx with ⟨hmem, hne⟩ | ⟨i, s, hi, hs, hxs⟩
  · exact ⟨hwf x hmem, hne⟩
  · have hsurf := Import.surface_mem hs (by simpa [Element.WellFormed] using hwf _ hi) x hxs
    refine ⟨hsurf.1, ?_⟩
    rintro i rfl
    simp [Element.isSurfaceKind] at hsurf

theorem flatten_linkNames {es flat : List Element} (h : flatten es = .ok flat)
    (hwf : ∀ e ∈ es, e.WellFormed) :
    flat.filterMap Element.linkName? = es.filterMap Element.linkName? := by
  induction es generalizing flat with
  | nil =>
    simp only [flatten, Except.ok.injEq] at h
    simp [← h]
  | cons e es ih =>
    have hwf' : ∀ x ∈ es, x.WellFormed := fun x hx => hwf x (List.mem_cons_of_mem _ hx)
    cases e with
    | import_ i =>
      obtain ⟨si, hi, h⟩ := Except.bind_eq_ok h
      obtain ⟨rest, hrest, h⟩ := Except.bind_eq_ok h
      cases h
      have hnone : si.filterMap Element.linkName? = [] := by
        rw [List.filterMap_eq_nil_iff]
        intro x hx
        have := (Import.surface_mem hi (by simpa [Element.WellFormed] using hwf _ List.mem_cons_self) x hx).2
        cases x <;> simp_all [Element.isSurfaceKind, Element.linkName?]
      rw [List.filterMap_append, hnone, ih hrest hwf']
      rfl
    | _ =>
      obtain ⟨rest, hrest, h⟩ := Except.bind_eq_ok h
      cases h
      simp only [List.filterMap_cons, ih hrest hwf']

end ModularC
