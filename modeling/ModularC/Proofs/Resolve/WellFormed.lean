import ModularC.Build
import ModularC.Proofs.Syntax.Parsed
import ModularC.Proofs.Lowering.Surface

/-!
Resolution gives well-formed modules (`Workspace.resolve_wellFormed`).
-/

namespace ModularC

namespace Resolver

theorem linkImports_wellFormed {targets : List (String × Module)} {m : Module}
    (ht : ∀ p ∈ targets, p.2.WellFormed) (hm : m.WellFormed) : (linkImports targets m).WellFormed := by
  rw [Module.wellFormed_iff] at hm ⊢
  intro e he
  simp only [linkImports, List.mem_map] at he
  obtain ⟨e, he', rfl⟩ := he
  split
  next i =>
    cases h : targets.lookup i.path with
    | none => trivial
    | some t =>
      obtain ⟨l₁, l₂, hl, -⟩ := List.lookup_eq_some_iff.1 h
      exact ht (i.path, t) (by rw [hl]; simp)
  next => exact hm e he'

theorem mem_foldl_fst {γ : Type} {f : List Element × γ → Element → List Element × γ}
    (hf : ∀ acc x, ∀ e ∈ (f acc x).1, e ∈ acc.1 ∨ e = x) :
    ∀ (xs : List Element) acc, ∀ e ∈ (xs.foldl f acc).1, e ∈ acc.1 ∨ e ∈ xs
  | [], _, e, he => Or.inl he
  | x :: xs, acc, e, he => by
    rcases mem_foldl_fst hf xs (f acc x) e he with he | he
    · rcases hf acc x e he with he | rfl
      · exact Or.inl he
      · exact Or.inr List.mem_cons_self
    · exact Or.inr (List.mem_cons_of_mem _ he)

theorem mem_merge {name path : String} {parts : List Module} {e : Element}
    (he : e ∈ (merge name path parts).elements) : ∃ p ∈ parts, e ∈ p.elements := by
  simp only [merge] at he
  refine (mem_foldl_fst ?_ _ _ e he).elim (fun he => by cases he) List.mem_flatMap.1
  intro acc x e he
  split at he
  · split at he
    · exact Or.inl he
    · simpa using he
  · simpa using he

theorem merge_wellFormed {name path : String} {parts : List Module}
    (h : ∀ p ∈ parts, p.WellFormed) : (merge name path parts).WellFormed := by
  rw [Module.wellFormed_iff]
  intro e he
  obtain ⟨p, hp, he⟩ := mem_merge he
  exact Module.wellFormed_iff.1 (h p hp) e he

theorem mem_of_mapM_eq_ok {α β ε : Type} {f : α → Except ε β} {P : β → Prop} :
    ∀ {xs : List α} {ys : List β}, (∀ x ∈ xs, ∀ y, f x = .ok y → P y) → xs.mapM f = .ok ys →
      ∀ y ∈ ys, P y
  | [], ys, _, h => by
    cases h
    intro y hy
    cases hy
  | x :: xs, ys, hf, h => by
    rw [List.mapM_cons] at h
    obtain ⟨y, hy, h⟩ := Except.bind_eq_ok h
    obtain ⟨ys', hys', h⟩ := Except.bind_eq_ok h
    cases h
    intro z hz
    rcases List.mem_cons.1 hz with rfl | hz
    · exact hf x List.mem_cons_self z hy
    · exact mem_of_mapM_eq_ok (fun x' hx' => hf x' (List.mem_cons_of_mem _ hx')) hys' z hz

/-- A member whose words are identifiers and whose imports resolved to well-formed modules. -/
def Member.Sound (m : Member) : Prop :=
  (∀ t ∈ m.tokens, t.WordsIdentifiers) ∧ ∀ p ∈ m.imports, p.2.WellFormed

theorem parseMembers_wellFormed {pending : List Member} {parts : List Module}
    (hp : ∀ m ∈ pending, m.Sound) (h : parseMembers pending = .ok parts) :
    ∀ p ∈ parts, p.WellFormed := by
  unfold parseMembers at h
  refine mem_of_mapM_eq_ok (fun x hx y hy => ?_) h
  obtain ⟨m, i⟩ := x
  obtain ⟨hw, himp⟩ := hp m (List.fst_mem_of_mem_zipIdx hx)
  obtain ⟨parsed, hparsed, hy⟩ := Except.bind_eq_ok hy
  cases hy
  exact linkImports_wellFormed himp (Module.ofTokens_wellFormed hw hparsed)

/-- Every module resolution has finished so far is well-formed. -/
def Sound (r : Resolver) : Prop := (∀ e ∈ r.cache, e.2.WellFormed) ∧ ∀ m ∈ r.order, m.WellFormed

/-- From a sound resolver, a step that succeeds leaves it sound and gives a result that satisfies
`P`. -/
def Keeps {α : Type} (x : Resolution α) (P : α → Prop) : Prop :=
  ∀ r, r.Sound → ∀ a r', x.run r = .ok (a, r') → r'.Sound ∧ P a

theorem Sound.enter {r : Resolver} (hr : r.Sound) (inProgress : List String) :
    ({ r with inProgress } : Resolver).Sound := hr

theorem Sound.finish {r : Resolver} (hr : r.Sound) {canon : String} {m : Module}
    (hm : m.WellFormed) (inProgress : List String) :
    ({ r with inProgress, cache := (canon, m) :: r.cache, order := r.order ++ [m] } : Resolver).Sound := by
  refine ⟨fun e he => ?_, fun m' hm' => ?_⟩
  · rcases List.mem_cons.1 he with rfl | he
    · exact hm
    · exact hr.1 e he
  · rcases List.mem_append.1 hm' with hm' | hm'
    · exact hr.2 m' hm'
    · rw [List.mem_singleton] at hm'
      subst hm'
      exact hm

namespace Keeps

variable {α β : Type}

theorem pure {a : α} {P : α → Prop} (h : P a) : Keeps (pure a) P := by
  intro r hr b r' hb
  cases hb
  exact ⟨hr, h⟩

theorem throw_bind {e : Error} {f : α → Resolution β} {P : β → Prop} : Keeps ((throw e : Resolution α) >>= f) P := by
  intro r hr b r' hb
  cases hb

theorem throw {e : Error} {P : α → Prop} : Keeps (throw e) P := by
  intro r hr b r' hb
  cases hb

theorem get : Keeps get Sound := by
  intro r hr b r' hb
  cases hb
  exact ⟨hr, hr⟩

theorem set {s : Resolver} (hs : s.Sound) : Keeps (set s) fun _ => True := by
  intro r hr b r' hb
  cases hb
  exact ⟨hs, True.intro⟩

theorem modify {f : Resolver → Resolver} (hf : ∀ r, r.Sound → (f r).Sound) :
    Keeps (modify f) fun _ => True := by
  intro r hr b r' hb
  cases hb
  exact ⟨hf r hr, True.intro⟩

theorem bind {x : Resolution α} {f : α → Resolution β} {Q : α → Prop} {P : β → Prop}
    (hx : Keeps x Q) (hf : ∀ a, Q a → Keeps (f a) P) : Keeps (x >>= f) P := by
  intro r hr b r'' h
  rw [StateT.run_bind] at h
  rcases hrun : x.run r with e | ⟨a, r'⟩
  · rw [hrun] at h
    cases h
  · rw [hrun] at h
    obtain ⟨hr', ha⟩ := hx r hr a r' hrun
    exact hf a ha r' hr' b r'' h

theorem mapM {f : α → Resolution β} {P : β → Prop} :
    ∀ {xs : List α}, (∀ x ∈ xs, Keeps (f x) P) → Keeps (xs.mapM f) fun bs => ∀ b ∈ bs, P b
  | [], _ => Keeps.pure fun b hb => by cases hb
  | x :: xs, h => by
    rw [List.mapM_cons]
    refine (h x List.mem_cons_self).bind fun b hb =>
      (Keeps.mapM fun y hy => h y (List.mem_cons_of_mem _ hy)).bind fun bs hbs => Keeps.pure ?_
    intro c hc
    rcases List.mem_cons.1 hc with rfl | hc
    · exact hb
    · exact hbs c hc

end Keeps

theorem keeps_resolve_succ {fuel : Nat} (hload : ∀ canon, Keeps (load fuel canon) Module.WellFormed)
    (path : String) : Keeps (resolve (fuel + 1) path) Module.WellFormed := by
  rw [resolve]
  refine Keeps.get.bind fun r hr => ?_
  extract_lets +lift jp
  have hjp : ∀ canon, Keeps (jp canon) Module.WellFormed := by
    intro canon
    dsimp -zeta only [jp]
    split
    next m hm =>
      obtain ⟨l₁, l₂, hl, -⟩ := List.lookup_eq_some_iff.1 hm
      exact Keeps.pure (hr.1 (canon, m) (by rw [hl]; simp))
    extract_lets +lift load'
    have hload' : ∀ u, Keeps (load' u) Module.WellFormed := by
      intro u
      dsimp -zeta only [load']
      exact (Keeps.set (hr.enter _)).bind fun _ _ => (hload canon).bind fun m hm =>
        (Keeps.modify fun r' hr' => hr'.finish hm _).bind fun _ _ => Keeps.pure hm
    split
    · exact Keeps.throw_bind
    · exact hload' ()
  split
  · rw [pure_bind]
    exact hjp _
  · exact Keeps.throw_bind

theorem keeps_load_succ {fuel : Nat}
    (hbuild : ∀ path dir sources, Keeps (build fuel path dir sources) Module.WellFormed)
    (canon : String) : Keeps (load (fuel + 1) canon) Module.WellFormed := by
  rw [load]
  refine Keeps.get.bind fun r _ => ?_
  split
  refine (Keeps.mapM (P := fun _ => True) fun f _ => ?_).bind fun sources _ =>
    hbuild canon _ sources
  split
  · exact Keeps.pure True.intro
  · exact Keeps.throw

theorem keeps_build_succ {fuel : Nat}
    (himport : ∀ path dir, Keeps (resolveImport fuel path dir) Module.WellFormed)
    (path dir : String) (sources : List (String × String)) :
    Keeps (build (fuel + 1) path dir sources) Module.WellFormed := by
  rw [build]
  refine (Keeps.mapM (P := Member.Sound) fun x _ => ?_).bind fun pending hpending => ?_
  · obtain ⟨file, source⟩ := x
    dsimp only
    exact (Keeps.mapM (P := fun p => p.2.WellFormed) fun p _ =>
      (himport p dir).bind fun m hm => Keeps.pure hm).bind fun imports himports =>
        Keeps.pure ⟨tokenize_word source, himports⟩
  · split
    next parts hparts => exact Keeps.pure (merge_wellFormed (parseMembers_wellFormed hpending hparts))
    next => exact Keeps.throw

theorem keeps_resolveImport_succ {fuel : Nat}
    (hresolve : ∀ path, Keeps (resolve fuel path) Module.WellFormed) (path dir : String) :
    Keeps (resolveImport (fuel + 1) path dir) Module.WellFormed := by
  rw [resolveImport]
  refine Keeps.get.bind fun r _ => ?_
  split
  · exact hresolve _
  · exact Keeps.throw

/-- Every module that resolution, loading, building or an import gives is well-formed, and the
resolver stays sound. -/
theorem keeps_resolution : ∀ fuel,
    (∀ path, Keeps (resolve fuel path) Module.WellFormed) ∧
    (∀ canon, Keeps (load fuel canon) Module.WellFormed) ∧
    (∀ path dir sources, Keeps (build fuel path dir sources) Module.WellFormed) ∧
    (∀ path dir, Keeps (resolveImport fuel path dir) Module.WellFormed)
  | 0 => by
    refine ⟨fun _ => ?_, fun _ => ?_, fun _ _ _ => ?_, fun _ _ => ?_⟩ <;>
      first | rw [resolve] | rw [load] | rw [build] | rw [resolveImport]
    all_goals exact Keeps.get.bind fun _ _ => Keeps.throw
  | fuel + 1 =>
    have ⟨hresolve, hload, hbuild, himport⟩ := keeps_resolution fuel
    ⟨keeps_resolve_succ hload, keeps_load_succ hbuild, keeps_build_succ himport,
      keeps_resolveImport_succ hresolve⟩

theorem Sound.push {r : Resolver} (hr : r.Sound) {m : Module} (hm : m.WellFormed) :
    ({ r with order := r.order ++ [m] } : Resolver).Sound := by
  refine ⟨hr.1, fun m' hm' => ?_⟩
  rcases List.mem_append.1 hm' with hm' | hm'
  · exact hr.2 m' hm'
  · rw [List.mem_singleton] at hm'
    subst hm'
    exact hm

theorem keeps_resolveSource (fuel : Nat) (source path dir : String) :
    Keeps (resolveSource fuel source path dir) Module.WellFormed := by
  unfold resolveSource
  exact ((keeps_resolution fuel).2.2.1 path dir _).bind fun m hm =>
    (Keeps.modify fun r hr => hr.push hm).bind fun _ _ => Keeps.pure hm

theorem start_sound (config : Config) (tree : Tree) (cwd : List String) :
    (start config tree cwd).Sound := by
  refine ⟨fun e he => ?_, fun m hm => ?_⟩
  · cases he
  · cases hm

end Resolver

/-- The module a path resolves to, and every module resolution lists for lowering, are
well-formed. -/
theorem Workspace.resolve_wellFormed {w : Workspace} {path : String} {m : Module} {r : Resolver}
    (h : w.resolve path = .ok (m, r)) : m.WellFormed ∧ ∀ m' ∈ r.order, m'.WellFormed := by
  obtain ⟨hr, hm⟩ := (Resolver.keeps_resolution _).1 path w.resolver
    (Resolver.start_sound _ _ _) m r h
  exact ⟨hm, hr.2⟩

end ModularC
