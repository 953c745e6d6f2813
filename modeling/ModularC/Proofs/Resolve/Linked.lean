import ModularC.Proofs.Resolve.Run
import ModularC.Proofs.Syntax.Imports
import ModularC.Proofs.Lowering.Exports
import ModularC.Proofs.Lowering.Order

/-!
Resolution links every import to the module its path resolves to
(`Workspace.resolution_linked`).
-/

namespace ModularC

/-! ### Linked modules lower -/

theorem Module.surface_ok_of_linked {m : Module} (h : m.Linked) : ∃ s, m.surface = .ok s := by
  have hs := Module.surface_declaredTypeNames h
  cases hsurf : m.surface with
  | error err =>
    rw [hsurf] at hs
    cases hs
  | ok s => exact ⟨s, rfl⟩

theorem flatten_ok_of_linked : ∀ {es : List Element}, (∀ e ∈ es, e.Linked) →
    ∃ flat, flatten es = .ok flat
  | [], _ => ⟨[], rfl⟩
  | e :: es, h => by
    obtain ⟨rest, hrest⟩ := flatten_ok_of_linked fun e' he' => h e' (List.mem_cons_of_mem _ he')
    have he := h e List.mem_cons_self
    cases e with
    | import_ i =>
      obtain ⟨path, pos, target⟩ := i
      cases target with
      | none => exact he.elim
      | some m =>
        obtain ⟨s, hs⟩ := Module.surface_ok_of_linked he
        exact ⟨s ++ rest, by simp [flatten, Import.surface, hs, hrest, bind, Except.bind, pure,
          Except.pure]⟩
    | _ => exact ⟨_, by simp [flatten, hrest, bind, Except.bind, pure, Except.pure]; rfl⟩

theorem Module.lower_ne_unresolvedImport {m : Module} {flat : List Element}
    (hflat : flatten m.elements = .ok flat) (p : String) :
    m.lower ≠ .error (.unresolvedImport p) := by
  intro h
  simp only [Module.lower, hflat, bind, Except.bind] at h
  obtain ⟨name, first, second, he⟩ := dedupAfter_eq_error (Resolver.eq_error_of_bind_pure h)
  cases he

/-- Flattening the module's elements and taking its surface succeed, and lowering it reports no
unresolved import. -/
def Module.Flattens (m : Module) : Prop :=
  (∃ flat, flatten m.elements = .ok flat) ∧ (∃ s, m.surface = .ok s) ∧
    ∀ p, m.lower ≠ .error (.unresolvedImport p)

theorem Module.Linked.flattens {m : Module} (h : m.Linked) : m.Flattens := by
  obtain ⟨flat, hflat⟩ := flatten_ok_of_linked (Module.linked_iff.1 h)
  exact ⟨⟨flat, hflat⟩, Module.surface_ok_of_linked h, Module.lower_ne_unresolvedImport hflat⟩

/-! ### Linking resolvers -/

namespace Workspace

open Resolver Resolution

variable (w : Workspace)

/-- `x` is the module that an import of `p`, written in a file of the directory `dir`, resolves
to: its path is the canonical path of the import's candidate. -/
def ResolvesTo (dir p : String) (x : Module) : Prop :=
  ∃ cand, (w.resolver.bases p dir).findSome? w.resolver.candidate = some cand ∧
    w.tree.canonicalize w.cwd cand = .ok x.path

/-- Every import of `m`, written in a file of `dir`, points to the module of `mods` that its path
resolves to. -/
def LinkedFrom (dir : String) (mods : List Module) (m : Module) : Prop :=
  ∀ i, Element.import_ i ∈ m.elements → ∃ x ∈ mods, i.target = some x ∧ w.ResolvesTo dir i.path x

/-- A resolver working in `w` whose cache holds listed modules under their own paths, and whose
listed modules are linked, each from the directory its plan reads imports from. -/
structure Linking (r : Resolver) : Prop where
  config : r.config = w.config
  tree : r.tree = w.tree
  cwd : r.cwd = w.cwd
  cache : ∀ c m, r.cache.lookup c = some m → m ∈ r.order ∧ m.path = c
  linkedFrom : ∀ m ∈ r.order, w.LinkedFrom (w.resolver.plan m.path).2 r.order m
  linked : ∀ m ∈ r.order, m.Linked

/-- A member whose parse imports only surveyed paths, and whose imports hold a module for every
surveyed path, the one the path resolves to from `dir`. -/
def MemberFrom (dir : String) (mem : Member) : Prop :=
  (∀ t ∈ mem.tokens.dropLast, t.isEof = false) ∧
    (∀ p ∈ surveyImports mem.tokens, p ∈ mem.imports.map Prod.fst) ∧
    ∀ pm ∈ mem.imports, w.ResolvesTo dir pm.1 pm.2

variable {w}

theorem LinkedFrom.mono {dir : String} {mods mods' : List Module} {m : Module}
    (h : w.LinkedFrom dir mods m) (hsub : mods ⊆ mods') : w.LinkedFrom dir mods' m := by
  intro i hi
  obtain ⟨x, hx, ht, hres⟩ := h i hi
  exact ⟨x, hsub hx, ht, hres⟩

theorem LinkedFrom.linked {dir : String} {mods : List Module} {m : Module}
    (h : w.LinkedFrom dir mods m) (hmods : ∀ x ∈ mods, x.Linked) : m.Linked := by
  rw [Module.linked_iff]
  intro e he
  refine Element.linked_of_target fun i hi => ?_
  subst hi
  obtain ⟨x, hx, ht, -⟩ := h i he
  exact ⟨x, ht, hmods x hx⟩

theorem linkedFrom_parseMembers {dir : String} {pending : List Member} {parts : List Module}
    (hp : ∀ mem ∈ pending, w.MemberFrom dir mem) (h : parseMembers pending = .ok parts) :
    ∀ part ∈ parts,
      w.LinkedFrom dir (pending.flatMap fun mem => mem.imports.map Prod.snd) part := by
  unfold parseMembers at h
  refine mem_of_mapM_eq_ok (fun x hx y hy => ?_) h
  obtain ⟨mem, k⟩ := x
  have hmem := List.fst_mem_of_mem_zipIdx hx
  obtain ⟨hts, hsurvey, hres⟩ := hp mem hmem
  obtain ⟨parsed, hparsed, hy⟩ := Except.bind_eq_ok hy
  cases hy
  intro i hi
  obtain ⟨j, hj, rfl⟩ := import_mem_linkImports hi
  -- the parse imports only surveyed paths, and each surveyed path has a module
  have hsurveyed : j.path ∈ surveyImports mem.tokens := by
    rw [← Module.ofTokens_importPaths hts hparsed]
    exact List.mem_filterMap.2 ⟨_, hj, rfl⟩
  obtain ⟨pm, hpm, hkey⟩ := List.mem_map.1 (hsurvey _ hsurveyed)
  cases hlook : mem.imports.lookup j.path with
  | none =>
    have hne := List.lookup_eq_none_iff.1 hlook pm hpm
    simp [hkey] at hne
  | some x =>
    obtain ⟨l₁, l₂, hl, -⟩ := List.lookup_eq_some_iff.1 hlook
    have hx : (j.path, x) ∈ mem.imports := by rw [hl]; simp
    exact ⟨x, List.mem_flatMap.2 ⟨mem, hmem, List.mem_map_of_mem hx⟩, rfl, hres _ hx⟩

namespace Linking

variable {r : Resolver}

theorem start : w.Linking w.resolver where
  config := rfl
  tree := rfl
  cwd := rfl
  cache _ _ h := by cases h
  linkedFrom _ h := by cases h
  linked _ h := by cases h

theorem plan (h : w.Linking r) : r.plan = w.resolver.plan := plan_eq h.config h.tree h.cwd

theorem candidate (h : w.Linking r) : r.candidate = w.resolver.candidate :=
  candidate_eq h.tree h.cwd

theorem bases (h : w.Linking r) : r.bases = w.resolver.bases := bases_eq h.config

theorem enter (h : w.Linking r) (inProgress : List String) : w.Linking { r with inProgress } where
  config := h.config
  tree := h.tree
  cwd := h.cwd
  cache := h.cache
  linkedFrom := h.linkedFrom
  linked := h.linked

theorem finish (h : w.Linking r) {c : String} {m : Module} (hm : m.path = c)
    (hfrom : w.LinkedFrom (w.resolver.plan c).2 r.order m) (hlinked : m.Linked)
    (inProgress : List String) :
    w.Linking { r with inProgress, cache := (c, m) :: r.cache, order := r.order ++ [m] } where
  config := h.config
  tree := h.tree
  cwd := h.cwd
  cache c' m' hl := by
    rw [List.lookup_cons] at hl
    split at hl
    next hc =>
      cases hl
      exact ⟨by simp, hm.trans (beq_iff_eq.1 hc).symm⟩
    next =>
      obtain ⟨hmem, hpath⟩ := h.cache c' m' hl
      exact ⟨List.mem_append_left _ hmem, hpath⟩
  linkedFrom m' hm' := by
    rcases List.mem_append.1 hm' with hm' | hm'
    · exact (h.linkedFrom m' hm').mono (List.subset_append_left _ _)
    · rw [List.mem_singleton] at hm'
      subst hm'
      exact hm ▸ hfrom.mono (List.subset_append_left _ _)
  linked m' hm' := by
    rcases List.mem_append.1 hm' with hm' | hm'
    · exact h.linked m' hm'
    · rw [List.mem_singleton] at hm'
      exact hm' ▸ hlinked

end Linking

/-! ### Every step of resolution keeps the resolver linking -/

variable (w)

/-- Resolving a path with `fuel`: the module is listed, under the path's canonical path. -/
def ResolveLinks (fuel : Nat) : Prop :=
  ∀ path, Agrees w.Linking (Resolver.resolve fuel path) (Resolver.resolve fuel path)
    (fun m r => w.Linking r ∧ m ∈ r.order ∧ w.tree.canonicalize w.cwd path = .ok m.path)
    fun _ => True

/-- Loading a place with `fuel`: the module is the place's, linked from the directory of its
plan. -/
def LoadLinks (fuel : Nat) : Prop :=
  ∀ canon, Agrees w.Linking (load fuel canon) (load fuel canon)
    (fun m r => w.Linking r ∧ m.path = canon ∧ w.LinkedFrom (w.resolver.plan canon).2 r.order m ∧
      m.Linked)
    fun _ => True

/-- Building a module from files of `dir` with `fuel`: the module is linked from `dir`. -/
def BuildLinks (fuel : Nat) : Prop :=
  ∀ path dir sources, Agrees w.Linking (build fuel path dir sources) (build fuel path dir sources)
    (fun m r => w.Linking r ∧ m.path = path ∧ w.LinkedFrom dir r.order m ∧ m.Linked)
    fun _ => True

/-- Resolving an import written in a file of `dir` with `fuel`: the module is listed, and the
import's path resolves to it. -/
def ImportLinks (fuel : Nat) : Prop :=
  ∀ p dir, Agrees w.Linking (resolveImport fuel p dir) (resolveImport fuel p dir)
    (fun m r => w.Linking r ∧ m ∈ r.order ∧ w.ResolvesTo dir p m)
    fun _ => True

variable {w}

variable {fuel : Nat}

theorem LoadLinks.resolveLinks (h : w.LoadLinks fuel) : w.ResolveLinks (fuel + 1) := by
  intro path
  rw [Resolver.resolve]
  refine Agrees.get.bind fun r => Agrees.of_pre (fun _ h => h.2 ▸ h.1) fun hr => ?_
  cases hcanon : r.tree.canonicalize r.cwd path with
  | error f =>
    dsimp only
    exact Agrees.throw_bind fun _ _ => trivial
  | ok c =>
    simp only [pure_bind]
    have hcanon' : w.tree.canonicalize w.cwd path = .ok c := by
      rw [← hr.tree, ← hr.cwd]
      exact hcanon
    cases hlook : r.cache.lookup c with
    | some mod =>
      dsimp only
      obtain ⟨hmem, hpath⟩ := hr.cache c mod hlook
      refine Agrees.pure fun r' h => ?_
      obtain ⟨hr', rfl⟩ := h
      exact ⟨hr', hmem, hpath ▸ hcanon'⟩
    | none =>
      dsimp only
      cases hidx : r.inProgress.idxOf? c with
      | some i =>
        dsimp only
        exact Agrees.throw_bind fun _ _ => trivial
      | none =>
        dsimp only
        refine (Agrees.set (Q := fun _ s => w.Linking s) fun r' h => ?_).bind fun _ => ?_
        · obtain ⟨-, rfl⟩ := h
          exact ⟨List.prefix_refl _, hr.enter _⟩
        refine (h c).bind fun mod => ?_
        refine (Agrees.modify (Q := fun _ s => w.Linking s ∧ mod ∈ s.order ∧ mod.path = c)
          fun r₂ h => ?_).bind fun _ => Agrees.pure fun r₃ h => ⟨h.1, h.2.1, h.2.2 ▸ hcanon'⟩
        obtain ⟨hr₂, hpath, hfrom, hlinked⟩ := h
        exact ⟨List.prefix_append _ _, hr₂.finish hpath hfrom hlinked _, by simp, hpath⟩

theorem BuildLinks.loadLinks (h : w.BuildLinks fuel) : w.LoadLinks (fuel + 1) := by
  intro canon
  rw [load]
  refine Agrees.get_bind fun r hr => ?_
  rw [hr.plan]
  rcases hplan : w.resolver.plan canon with ⟨files, dir⟩
  dsimp only
  refine (Agrees.mapM (I := w.Linking) (S := fun _ _ => True) (fun _ => []) fun f _ => ?_).bind
    fun sources => (h canon dir sources).mono (fun _ h => h.1) (fun _ _ h => h) fun _ h => h
  split
  · exact Agrees.pure fun r hr => ⟨hr, trivial, fun _ h => by cases h⟩
  · exact Agrees.throw fun _ _ => trivial

theorem ImportLinks.buildLinks (h : w.ImportLinks fuel) : w.BuildLinks (fuel + 1) := by
  intro path dir sources
  rw [build]
  refine (Agrees.mapM (I := w.Linking) (S := fun _ mem => w.MemberFrom dir mem)
    (fun mem => mem.imports.map Prod.snd) fun s _ => ?_).bind fun pending =>
      Agrees.of_pre (fun _ h => h.2.1) fun hrel => ?_
  · obtain ⟨file, source⟩ := s
    refine (Agrees.mapM (I := w.Linking) (S := fun p pm => pm.1 = p ∧ w.ResolvesTo dir p pm.2)
      (fun pm => [pm.2]) fun p _ => ?_).bind fun imports => Agrees.pure ?_
    · refine (h p dir).bind fun mod => Agrees.pure ?_
      rintro r ⟨hr, hmem, hres⟩
      exact ⟨hr, ⟨rfl, hres⟩, fun x hx => by rw [List.mem_singleton.1 hx]; exact hmem⟩
    · rintro r ⟨hr, himports, hlisted⟩
      refine ⟨hr, ⟨tokenize_dropLast_isEof source, fun p hp => ?_, fun pm hpm => ?_⟩, ?_⟩
      · obtain ⟨pm, hpm, rfl, -⟩ :=
          List.Forall₂.exists_mem_left himports p (List.mem_eraseDups.2 hp)
        exact List.mem_map_of_mem hpm
      · obtain ⟨p, -, rfl, hres⟩ := List.Forall₂.exists_mem_right himports pm hpm
        exact hres
      · intro x hx
        obtain ⟨pm, hpm, rfl⟩ := List.mem_map.1 hx
        exact hlisted pm hpm pm.2 List.mem_cons_self
  · cases hparse : parseMembers pending with
    | error err => exact Agrees.throw fun _ _ => trivial
    | ok parts =>
      refine Agrees.pure fun r h => ?_
      obtain ⟨hr, -, hlisted⟩ := h
      have hmembers : ∀ mem ∈ pending, w.MemberFrom dir mem := fun mem hmem => by
        obtain ⟨s, -, hS⟩ := List.Forall₂.exists_mem_right hrel mem hmem
        exact hS
      have hfrom : w.LinkedFrom dir r.order (merge (Path.moduleName path) path parts) := by
        intro i hi
        obtain ⟨part, hpart, hi⟩ := mem_merge hi
        obtain ⟨x, hx, ht, hres⟩ := linkedFrom_parseMembers hmembers hparse part hpart i hi
        obtain ⟨mem, hmem, hx⟩ := List.mem_flatMap.1 hx
        exact ⟨x, hlisted mem hmem x hx, ht, hres⟩
      exact ⟨hr, rfl, hfrom, hfrom.linked hr.linked⟩

theorem ResolveLinks.importLinks (h : w.ResolveLinks fuel) : w.ImportLinks (fuel + 1) := by
  intro p dir
  rw [resolveImport]
  refine Agrees.get_bind fun r hr => ?_
  rw [hr.candidate, hr.bases]
  cases hfind : (w.resolver.bases p dir).findSome? w.resolver.candidate with
  | none => exact Agrees.throw fun _ _ => trivial
  | some cand =>
    exact (h cand).mono (fun _ h => h) (fun m _ h => ⟨h.1, h.2.1, cand, hfind, h.2.2⟩) fun _ h => h

theorem links : ∀ fuel, w.ResolveLinks fuel ∧ w.LoadLinks fuel ∧ w.BuildLinks fuel ∧
    w.ImportLinks fuel
  | 0 => by
    refine ⟨fun _ => ?_, fun _ => ?_, fun _ _ _ => ?_, fun _ _ => ?_⟩ <;>
      first | rw [Resolver.resolve] | rw [load] | rw [build] | rw [resolveImport]
    all_goals exact Agrees.get_bind fun _ _ => Agrees.throw fun _ _ => trivial
  | fuel + 1 =>
    have ⟨hresolve, hload, hbuild, himport⟩ := links fuel
    ⟨hload.resolveLinks, hbuild.loadLinks, himport.buildLinks, hresolve.importLinks⟩

theorem linking_of_resolve {path : String} {m : Module} {r : Resolver}
    (h : w.resolve path = .ok (m, r)) : w.Linking r :=
  (((links _).1 path w.resolver Linking.start).2.1 m r h).2.1

theorem linked_of_resolveSource {fuel : Nat} {source path dir : String} {m : Module}
    {r : Resolver} (h : (resolveSource fuel source path dir).run w.resolver = .ok (m, r)) :
    ∃ r₁, w.Linking r₁ ∧ r.order = r₁.order ++ [m] ∧ w.LinkedFrom dir r.order m ∧ m.Linked := by
  have hrun : Agrees w.Linking (resolveSource fuel source path dir)
      (resolveSource fuel source path dir)
      (fun m r => ∃ r₁, w.Linking r₁ ∧ r.order = r₁.order ++ [m] ∧ w.LinkedFrom dir r.order m ∧
        m.Linked)
      fun _ => True := by
    unfold resolveSource
    refine ((links fuel).2.2.1 path dir _).bind fun mod => ?_
    refine (Agrees.modify (Q := fun _ s => ∃ r₁, w.Linking r₁ ∧ s.order = r₁.order ++ [mod] ∧
      w.LinkedFrom dir s.order mod ∧ mod.Linked) fun r₁ h => ?_).bind fun _ =>
        Agrees.pure fun _ h => h
    obtain ⟨hr₁, -, hfrom, hlinked⟩ := h
    exact ⟨List.prefix_append _ _, r₁, hr₁, rfl, hfrom.mono (List.subset_append_left _ _), hlinked⟩
  exact (hrun w.resolver Linking.start).2.1 m r h |>.2

end Workspace

/-- Every import of every module that resolution lists points to the listed module that its path
resolves to: from the directory that the plan of the module's path reads imports from, or, for a
resolved text, from the directory it names. So every listed module flattens, has a surface, and
lowers without an unresolved import. This rests on the parser: a module parsed from a token stream
that ends once imports exactly the paths that the survey of the stream lists, in order. -/
theorem Workspace.resolution_linked (w : Workspace) :
    (∀ {path : String} {m : Module} {r : Resolver}, w.resolve path = .ok (m, r) →
      ∀ x ∈ r.order, w.LinkedFrom (w.resolver.plan x.path).2 r.order x ∧ x.Flattens) ∧
    (∀ {fuel : Nat} {source path dir : String} {m : Module} {r : Resolver},
      (Resolver.resolveSource fuel source path dir).run w.resolver = .ok (m, r) →
      ∃ pre, r.order = pre ++ [m] ∧
        (∀ x ∈ pre, w.LinkedFrom (w.resolver.plan x.path).2 r.order x ∧ x.Flattens) ∧
        w.LinkedFrom dir r.order m ∧ m.Flattens) ∧
    ∀ {tokens : List Token} {names : TypeNames} {path : String} {m : Module},
      (∀ t ∈ tokens.dropLast, t.isEof = false) → Module.ofTokens tokens names path = .ok m →
      m.elements.filterMap Element.importPath? = surveyImports tokens := by
  refine ⟨fun h x hx => ?_, fun h => ?_, Module.ofTokens_importPaths⟩
  · have hr := Workspace.linking_of_resolve h
    exact ⟨hr.linkedFrom x hx, (hr.linked x hx).flattens⟩
  · obtain ⟨r₁, hr₁, horder, hfrom, hlinked⟩ := Workspace.linked_of_resolveSource h
    refine ⟨r₁.order, horder, fun x hx => ⟨?_, (hr₁.linked x hx).flattens⟩, hfrom,
      hlinked.flattens⟩
    rw [horder]
    exact (hr₁.linkedFrom x hx).mono (List.subset_append_left _ _)

/-- A program whose main file imports a library file by its name without `.c`. -/
def importPair : Workspace where
  config := ⟨none, "linux"⟩
  tree := ⟨["proj"], [(["main.c"], "import \"lib\";\nint main(void) { return lib; }\n"),
    (["lib.c"], "int lib;\n")], []⟩
  cwd := ["proj"]

theorem importPair_resolution_linked :
    ∃ m r, importPair.resolve "main.c" = .ok (m, r) ∧ r.order.length = 2 ∧
      ∀ x ∈ r.order, importPair.LinkedFrom (importPair.resolver.plan x.path).2 r.order x ∧
        x.Flattens := by
  have hlen : (importPair.resolve "main.c").toOption.map (·.2.order.length) = some 2 := by
    decide +kernel
  obtain ⟨⟨m, r⟩, hres, hlen⟩ := Except.exists_ok_of_toOption_map hlen
  exact ⟨m, r, hres, hlen, (Workspace.resolution_linked importPair).1 hres⟩

end ModularC
