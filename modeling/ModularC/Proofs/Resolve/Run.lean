import ModularC.Proofs.Resolve.Graph

/-!
A run of resolution: with `Resolver.fuelFor` it ends as with any more fuel, lists modules
after their imports, and reports only real cycles.
-/

namespace ModularC

namespace Workspace

open Resolver Resolution

variable {w : Workspace}

/-- What `path` names is imported by the last place in progress. -/
def Toward (w : Workspace) (ip : List String) (path : String) : Prop :=
  ∀ c, w.tree.canonicalize w.cwd path = .ok c → ∀ l ∈ ip.getLast?, w.Imports l c

/-- Resolving a path, with room `d` and at least `4 * d + 2` units of fuel: the module it gives
is listed, under the path's canonical path, and is listed last unless it was listed before. -/
def ResolveSpec (w : Workspace) (d : Nat) : Prop :=
  ∀ ip path L, w.Stack ip d → w.Toward ip path → ∀ n m, 4 * d + 2 ≤ n → 4 * d + 2 ≤ m →
    Agrees (fun r => w.Ready ip r ∧ r.order = L) (Resolver.resolve n path) (Resolver.resolve m path)
      (fun mod r => w.Ready ip r ∧ mod ∈ r.order ∧
        w.tree.canonicalize w.cwd path = .ok mod.path ∧ (mod ∈ L ∨ r.order.getLast? = some mod))
      w.CycleError

/-- Loading a place just entered, with room `d` before it was entered: the module is the
place's, its imports point to listed modules, and every path its files import is listed. -/
def LoadSpec (w : Workspace) (d : Nat) : Prop :=
  ∀ ip canon, w.Stack ip d → canon ∉ ip → (∀ l ∈ ip.getLast?, w.Imports l canon) →
    (∃ p, (∀ x ∈ p, Path.isPlain x = true) ∧ canon = Tree.render p) →
    ∀ n m, 4 * d + 1 ≤ n → 4 * d + 1 ≤ m →
    Agrees (w.Ready (ip ++ [canon])) (load n canon) (load m canon)
      (fun mod r => w.Ready (ip ++ [canon]) r ∧ mod.path = canon ∧
        (∀ t ∈ mod.targets, t ∈ r.order) ∧ ∀ c, w.Imports canon c → c ∈ r.order.map Module.path)
      w.CycleError

/-- Building a place from the files its plan names, read as they are, with room `e`. -/
def BuildSpec (w : Workspace) (e : Nat) : Prop :=
  ∀ ip canon sources, w.Stack (ip ++ [canon]) e →
    (∀ s ∈ sources, s.1 ∈ (w.resolver.plan canon).1 ∧ w.tree.read w.cwd s.1 = .ok s.2) →
    ∀ n m, 4 * e + 4 ≤ n → 4 * e + 4 ≤ m →
    Agrees (w.Ready (ip ++ [canon])) (build n canon (w.resolver.plan canon).2 sources)
      (build m canon (w.resolver.plan canon).2 sources)
      (fun mod r => w.Ready (ip ++ [canon]) r ∧ mod.path = canon ∧
        (∀ t ∈ mod.targets, t ∈ r.order) ∧ ∀ s ∈ sources, ∀ c,
          w.ImportsFrom (w.resolver.plan canon).2 s.2 c → c ∈ r.order.map Module.path)
      w.CycleError

/-- Resolving an import written in a file of `dir`, with room `e`: the module it gives is listed,
under the canonical path of the import's candidate. -/
def ImportSpec (w : Workspace) (e : Nat) : Prop :=
  ∀ ip p dir, w.Stack ip e →
    (∀ cand, (w.resolver.bases p dir).findSome? w.resolver.candidate = some cand →
      w.Toward ip cand) →
    ∀ n m, 4 * e + 3 ≤ n → 4 * e + 3 ≤ m →
    Agrees (w.Ready ip) (resolveImport n p dir) (resolveImport m p dir)
      (fun mod r => w.Ready ip r ∧ mod ∈ r.order ∧ ∃ cand,
        (w.resolver.bases p dir).findSome? w.resolver.candidate = some cand ∧
          w.tree.canonicalize w.cwd cand = .ok mod.path)
      w.CycleError

variable {d e : Nat}

theorem ResolveSpec.importSpec (h : w.ResolveSpec e) : w.ImportSpec e := by
  intro ip p dir hs hto n m hn hm
  obtain ⟨n, rfl⟩ : ∃ k, n = k + 1 := ⟨n - 1, by omega⟩
  obtain ⟨m, rfl⟩ : ∃ k, m = k + 1 := ⟨m - 1, by omega⟩
  rw [resolveImport, resolveImport]
  refine Agrees.get_bind fun r hr => ?_
  rw [hr.candidate, hr.bases]
  cases hfind : (w.resolver.bases p dir).findSome? w.resolver.candidate with
  | none =>
    refine Agrees.throw fun _ _ => ?_
    rintro chain ⟨⟩
  | some cand =>
    refine Agrees.of_order fun L => (h ip cand L hs (hto cand hfind) n m (by omega) (by omega)).mono
      (fun _ h => h) (fun mod _ h => ?_) fun _ h => h
    obtain ⟨hr', hmem, hcanon, -⟩ := h
    exact ⟨hr', hmem, cand, rfl, hcanon⟩

theorem ImportSpec.member (h : w.ImportSpec e) {ip : List String} {canon file source : String}
    (hs : w.Stack (ip ++ [canon]) e) (hfile : file ∈ (w.resolver.plan canon).1)
    (hread : w.tree.read w.cwd file = .ok source) {n m : Nat} (hn : 4 * e + 3 ≤ n)
    (hm : 4 * e + 3 ≤ m) :
    Agrees (w.Ready (ip ++ [canon]))
      ((surveyImports (tokenize source)).eraseDups.mapM fun p => do
        return (p, ← resolveImport n p (w.resolver.plan canon).2))
      ((surveyImports (tokenize source)).eraseDups.mapM fun p => do
        return (p, ← resolveImport m p (w.resolver.plan canon).2))
      (fun imports r => w.Ready (ip ++ [canon]) r ∧
        (∀ c, w.ImportsFrom (w.resolver.plan canon).2 source c →
          c ∈ imports.map fun pm => pm.2.path) ∧
        ∀ pm ∈ imports, pm.2 ∈ r.order)
      w.CycleError := by
  refine (Agrees.mapM (I := w.Ready (ip ++ [canon])) (E := w.CycleError)
    (S := fun p pm => pm.1 = p ∧ ∃ cand,
      (w.resolver.bases p (w.resolver.plan canon).2).findSome? w.resolver.candidate = some cand ∧
        w.tree.canonicalize w.cwd cand = .ok pm.2.path)
    (fun pm => [pm.2]) fun p hp => ?_).mono (fun _ h => h)
      (fun imports r h => ⟨h.1, ?_, ?_⟩) fun _ h => h
  · have hto : ∀ cand, (w.resolver.bases p (w.resolver.plan canon).2).findSome?
        w.resolver.candidate = some cand → w.Toward (ip ++ [canon]) cand := by
      intro cand hfind c hc l hl
      rw [List.getLast?_concat, Option.mem_def, Option.some.injEq] at hl
      subst hl
      exact ⟨file, hfile, source, hread, p, List.mem_eraseDups.1 hp, cand, hfind, hc⟩
    refine (h _ p _ hs hto n m hn hm).bind fun mod => Agrees.pure ?_
    rintro r ⟨hr, hmem, cand, hfind, hcanon⟩
    exact ⟨hr, ⟨rfl, cand, hfind, hcanon⟩, fun x hx => by simpa [List.mem_singleton.1 hx]⟩
  · obtain ⟨-, hrel, -⟩ := h
    rintro c ⟨p, hp, cand, hfind, hc⟩
    obtain ⟨pm, hpm, rfl, cand', hfind', hc'⟩ :=
      List.Forall₂.exists_mem_left hrel p (List.mem_eraseDups.2 hp)
    rw [hfind, Option.some.injEq] at hfind'
    subst hfind'
    rw [hc, Except.ok.injEq] at hc'
    exact List.mem_map.2 ⟨pm, hpm, hc'.symm⟩
  · exact fun pm hpm => h.2.2 pm hpm pm.2 List.mem_cons_self

theorem ImportSpec.buildSpec (h : w.ImportSpec e) : w.BuildSpec e := by
  intro ip canon sources hs hsrc n m hn hm
  obtain ⟨n, rfl⟩ : ∃ k, n = k + 1 := ⟨n - 1, by omega⟩
  obtain ⟨m, rfl⟩ : ∃ k, m = k + 1 := ⟨m - 1, by omega⟩
  rw [build, build]
  refine (Agrees.mapM (I := w.Ready (ip ++ [canon]))
    (S := fun s mem => ∀ c, w.ImportsFrom (w.resolver.plan canon).2 s.2 c →
      c ∈ mem.imports.map fun pm => pm.2.path)
    (fun mem => mem.imports.map Prod.snd) fun s hs' => ?_).bind fun pending => ?_
  · obtain ⟨file, source⟩ := s
    obtain ⟨hfile, hread⟩ := hsrc _ hs'
    refine (h.member hs hfile hread (by omega) (by omega)).bind fun imports => Agrees.pure ?_
    rintro r ⟨hr, hfrom, hlisted⟩
    refine ⟨hr, hfrom, fun mod hmod => ?_⟩
    obtain ⟨pm, hpm, rfl⟩ := List.mem_map.1 hmod
    exact hlisted pm hpm
  · refine Agrees.of_pre (fun _ h => h.2.1) fun hrel => ?_
    cases hparse : parseMembers pending with
    | error err =>
      exact Agrees.throw fun _ _ => w.cycleError_of_pos? (parseMembers_pos? hparse)
    | ok parts =>
      refine Agrees.pure fun r h => ⟨h.1, rfl, fun t ht => ?_, fun s hs' c hc => ?_⟩
      · obtain ⟨part, hpart, ht⟩ := targets_merge ht
        obtain ⟨mem, hmem, ht⟩ := targets_parseMembers hparse part hpart t ht
        exact h.2.2 mem hmem t ht
      · obtain ⟨mem, hmem, hS⟩ := List.Forall₂.exists_mem_left hrel s hs'
        obtain ⟨pm, hpm, rfl⟩ := List.mem_map.1 (hS c hc)
        exact List.mem_map_of_mem (h.2.2 mem hmem pm.2 (List.mem_map_of_mem hpm))

theorem mem_places_of_read {p : List String} (hp : ∀ x ∈ p, Path.isPlain x = true)
    (hread : ∀ f ∈ (w.resolver.plan (Tree.render p)).1, ∃ text, w.tree.read w.cwd f = .ok text) :
    Tree.render p ∈ w.tree.places.map Tree.render := by
  cases hwalk : w.tree.walk w.cwd (Tree.render p) with
  | ok qn => exact List.mem_map_of_mem (w.tree.walk_render hp hwalk).2
  | error err =>
    have hplan : (w.resolver.plan (Tree.render p)).1 = [Tree.render p] := by
      unfold Resolver.plan
      simp only [Workspace.resolver, Resolver.start, hwalk]
    obtain ⟨text, htext⟩ := hread _ (by rw [hplan]; exact List.mem_singleton_self _)
    unfold Tree.read at htext
    rw [hwalk] at htext
    cases htext

theorem loadSpec (hb : ∀ e, d = e + 1 → w.BuildSpec e) : w.LoadSpec d := by
  intro ip canon hs hc hto hplain n m hn hm
  obtain ⟨p, hp, hcanon⟩ := hplain
  obtain ⟨n, rfl⟩ : ∃ k, n = k + 1 := ⟨n - 1, by omega⟩
  obtain ⟨m, rfl⟩ : ∃ k, m = k + 1 := ⟨m - 1, by omega⟩
  rw [load, load]
  refine Agrees.get_bind fun r hr => ?_
  rw [hr.plan, hr.tree, hr.cwd]
  rcases hplan : w.resolver.plan canon with ⟨files, dir⟩
  dsimp only
  refine (Agrees.mapM (I := w.Ready (ip ++ [canon]))
    (S := fun f (s : String × String) => s.1 = f ∧ w.tree.read w.cwd f = .ok s.2) (fun _ => [])
    fun f _ => ?_).bind
    fun sources => Agrees.of_pre (fun _ h => h.2.1) fun hrel => ?_
  · cases hread : w.tree.read w.cwd f with
    | error err =>
      refine Agrees.throw fun _ _ => ?_
      rintro chain ⟨⟩
    | ok text => exact Agrees.pure fun r hr => ⟨hr, ⟨rfl, rfl⟩, fun _ h => by cases h⟩
  -- the files were read, so the place is one of the tree and there was room to enter it
  have hplace : canon ∈ w.tree.places.map Tree.render := by
    subst hcanon
    refine mem_places_of_read hp fun f hf => ?_
    rw [hplan] at hf
    obtain ⟨s, -, -, hread⟩ := List.Forall₂.exists_mem_left hrel f hf
    exact ⟨s.2, hread⟩
  obtain ⟨e, rfl, hs'⟩ := hs.push hc hplace hto
  have hsrc : ∀ s ∈ sources, s.1 ∈ (w.resolver.plan canon).1 ∧
      w.tree.read w.cwd s.1 = .ok s.2 := by
    intro s hs''
    obtain ⟨f, hf, rfl, hread⟩ := List.Forall₂.exists_mem_right hrel s hs''
    exact ⟨by rw [hplan]; exact hf, hread⟩
  have hbuild := hb e rfl ip canon sources hs' hsrc n m (by omega) (by omega)
  simp only [hplan] at hbuild
  refine hbuild.mono (fun _ h => h.1) (fun mod r h => ?_) fun _ h => h
  obtain ⟨hr', hpath, htargets, hfrom⟩ := h
  refine ⟨hr', hpath, htargets, ?_⟩
  rintro c ⟨f, hf, text, hread, hc'⟩
  rw [hplan] at hf hc'
  obtain ⟨s, hs'', -, hread'⟩ := List.Forall₂.exists_mem_left hrel f hf
  rw [hread, Except.ok.injEq] at hread'
  exact hfrom s hs'' c (hread' ▸ hc')

theorem LoadSpec.resolveSpec (hcwd : ∀ x ∈ w.cwd, Path.isPlain x = true) (hl : w.LoadSpec d) :
    w.ResolveSpec d := by
  intro ip path L hs hto n m hn hm
  obtain ⟨n, rfl⟩ : ∃ k, n = k + 1 := ⟨n - 1, by omega⟩
  obtain ⟨m, rfl⟩ : ∃ k, m = k + 1 := ⟨m - 1, by omega⟩
  rw [Resolver.resolve, Resolver.resolve]
  refine Agrees.get.bind fun r => Agrees.of_pre (fun _ h => h.2 ▸ h.1) fun hrL => ?_
  obtain ⟨hr, hL⟩ := hrL
  cases hcanon : r.tree.canonicalize r.cwd path with
  | error f =>
    dsimp only
    refine Agrees.throw_bind fun _ _ => ?_
    rintro chain ⟨⟩
  | ok c =>
    simp only [pure_bind]
    have hcanon' : w.tree.canonicalize w.cwd path = .ok c := by
      rw [← hr.tree, ← hr.cwd]
      exact hcanon
    cases hlook : r.cache.lookup c with
    | some mod =>
      dsimp only
      obtain ⟨hmem, hpath⟩ := hr.lookup_eq_some hlook
      refine Agrees.pure fun r' h => ?_
      obtain ⟨⟨hr', -⟩, rfl⟩ := h
      exact ⟨hr', hmem, hpath ▸ hcanon', .inl (hL ▸ hmem)⟩
    | none =>
      dsimp only
      cases hidx : r.inProgress.idxOf? c with
      | some i =>
        dsimp only
        refine Agrees.throw_bind fun _ _ => ?_
        rintro chain ⟨⟩
        rw [hr.stack] at hidx ⊢
        exact hs.isCycle hidx (hto c hcanon')
      | none =>
        dsimp only
        have hfresh := hr.lookup_eq_none hlook
        have hnot : c ∉ ip := hr.stack ▸ List.idxOf?_eq_none_iff.1 hidx
        obtain ⟨p, nd, hwalk, rfl⟩ := w.tree.canonicalize_eq_ok hcanon'
        refine (Agrees.set (Q := fun _ s => w.Ready (ip ++ [Tree.render p]) s) fun r' h => ?_).bind
          fun _ => ?_
        · obtain ⟨-, rfl⟩ := h
          refine ⟨List.prefix_refl _, ?_⟩
          rw [hr.stack]
          exact hr.enter hfresh
        refine (hl ip _ hs hnot (hto _ hcanon') ⟨p, w.tree.walk_plain hcwd hwalk, rfl⟩ n m
          (by omega) (by omega)).bind fun mod => ?_
        refine (Agrees.modify (Q := fun _ s => w.Ready ip s ∧ mod ∈ s.order ∧
          s.order.getLast? = some mod ∧ mod.path = Tree.render p) fun r₂ h => ?_).bind fun _ =>
            Agrees.pure fun r₃ h => ⟨h.1, h.2.1, h.2.2.2 ▸ hcanon', .inr h.2.2.1⟩
        obtain ⟨hr₂, hpath, htargets, himports⟩ := h
        exact ⟨List.prefix_append _ _, hr₂.finish hnot hpath htargets himports, by simp, by simp,
          hpath⟩

theorem resolveSpec (hcwd : ∀ x ∈ w.cwd, Path.isPlain x = true) : ∀ d, w.ResolveSpec d
  | 0 => (loadSpec fun _ h => by cases h).resolveSpec hcwd
  | d + 1 => (loadSpec fun e h => by
      cases h
      exact (resolveSpec hcwd d).importSpec.buildSpec).resolveSpec hcwd

theorem agrees_fuelFor (hcwd : ∀ x ∈ w.cwd, Path.isPlain x = true) (path : String) {n : Nat}
    (hn : Resolver.fuelFor w.tree ≤ n) :
    Agrees (fun r => w.Ready [] r ∧ r.order = []) (Resolver.resolve (Resolver.fuelFor w.tree) path)
      (Resolver.resolve n path)
      (fun mod r => w.Ready [] r ∧ mod ∈ r.order ∧
        w.tree.canonicalize w.cwd path = .ok mod.path ∧ (mod ∈ [] ∨ r.order.getLast? = some mod))
      w.CycleError :=
  resolveSpec hcwd _ [] path [] Stack.nil (fun _ _ l hl => by simp at hl) _ _
    w.tree.places_length_le (le_trans w.tree.places_length_le hn)

/-- Resolution never runs out of fuel: with `Resolver.fuelFor` it ends as with any more fuel.
When it gives a module, the module is the root path's, it is listed last, no path is listed twice,
every module is listed after the modules its imports point to, and imports that resolve to one
path point to one module. -/
theorem resolve_order {w : Workspace} {path : String} (hcwd : ∀ x ∈ w.cwd, Path.isPlain x = true) :
    (∀ n, Resolver.fuelFor w.tree ≤ n → (Resolver.resolve n path).run w.resolver = w.resolve path) ∧
    ∀ m r, w.resolve path = .ok (m, r) →
      w.tree.canonicalize w.cwd path = .ok m.path ∧ (r.order.map Module.path).Nodup ∧
      r.order.getLast? = some m ∧
      (∀ pre m' post, r.order = pre ++ m' :: post → ∀ t ∈ m'.targets, t ∈ pre) ∧
      ∀ m₁ ∈ r.order, ∀ m₂ ∈ r.order, ∀ t₁ ∈ m₁.targets, ∀ t₂ ∈ m₂.targets,
        t₁.path = t₂.path → t₁ = t₂ := by
  have hstart : w.Ready [] w.resolver ∧ w.resolver.order = [] := ⟨Ready.start, rfl⟩
  refine ⟨fun n hn => (agrees_fuelFor hcwd path hn w.resolver hstart).1, fun m r hres => ?_⟩
  obtain ⟨-, hok, -⟩ := agrees_fuelFor hcwd path le_rfl w.resolver hstart
  obtain ⟨-, hr, -, hcanon, hlast⟩ := hok m r hres
  have hlast' : r.order.getLast? = some m := hlast.resolve_left List.not_mem_nil
  refine ⟨hcanon, hr.nodup, hlast', hr.targets, ?_⟩
  have hlisted : ∀ m' ∈ r.order, ∀ t ∈ m'.targets, t ∈ r.order := by
    intro m' hm' t ht
    obtain ⟨pre, post, hsplit⟩ := List.append_of_mem hm'
    rw [hsplit]
    exact List.mem_append_left _ (hr.targets pre m' post hsplit t ht)
  intro m₁ hm₁ m₂ hm₂ t₁ ht₁ t₂ ht₂ hpath
  exact List.inj_on_of_nodup_map hr.nodup (hlisted m₁ hm₁ t₁ ht₁) (hlisted m₂ hm₂ t₂ ht₂) hpath

/-- Import cycles are reported exactly: a cycle that resolution reports is a cycle of the import
graph, and when resolution gives a module, no place reachable from it lies on a cycle. -/
theorem resolve_acyclic {w : Workspace} {path : String}
    (hcwd : ∀ x ∈ w.cwd, Path.isPlain x = true) :
    (∀ chain, w.resolve path = .error (.importCycle chain) → w.IsCycle chain) ∧
    ∀ m r, w.resolve path = .ok (m, r) →
      ∀ c, Relation.ReflTransGen w.Imports m.path c → ¬Relation.TransGen w.Imports c c := by
  obtain ⟨-, hok, herr⟩ := agrees_fuelFor hcwd path le_rfl w.resolver ⟨Ready.start, rfl⟩
  refine ⟨fun chain hres => herr _ hres chain rfl, fun m r hres c hc => ?_⟩
  obtain ⟨-, hr, hmem, -⟩ := hok m r hres
  exact hr.not_transGen_self (hr.mem_of_reflTransGen hc (List.mem_map_of_mem hmem))

end Workspace

/-- A program whose two package members import one library, by two spellings. -/
def packageSample : Workspace where
  config := ⟨none, "linux"⟩
  tree := ⟨["proj"], [(["app", "a.c"], "import \"../lib\";\n"),
    (["app", "b.c"], "import \"../lib.c\";\n"), (["lib.c"], "int lib;\n")], []⟩
  cwd := ["proj"]

theorem Except.exists_ok_of_toOption_map {ε α β : Type} {x : Except ε α} {f : α → β} {b : β}
    (h : x.toOption.map f = some b) : ∃ a, x = .ok a ∧ f a = b := by
  cases x with
  | error e => simp [Except.toOption] at h
  | ok a => exact ⟨a, rfl, Option.some.inj h⟩

/-- Resolving the package succeeds and lists two modules: the library, once, and the package. -/
theorem packageSample_resolve_ok :
    ∃ m r, packageSample.resolve "app" = .ok (m, r) ∧ r.order.length = 2 := by
  have hlen : (packageSample.resolve "app").toOption.map (·.2.order.length) = some 2 := by
    decide +kernel
  obtain ⟨⟨m, r⟩, hres, hlen⟩ := Except.exists_ok_of_toOption_map hlen
  exact ⟨m, r, hres, hlen⟩

theorem packageSample_resolve_order :
    (∀ x ∈ packageSample.cwd, Path.isPlain x = true) ∧
    (∀ n, Resolver.fuelFor packageSample.tree ≤ n →
      (Resolver.resolve n "app").run packageSample.resolver = packageSample.resolve "app") ∧
    ∃ m r, packageSample.resolve "app" = .ok (m, r) ∧ r.order.length = 2 ∧
      packageSample.tree.canonicalize packageSample.cwd "app" = .ok m.path ∧
      (r.order.map Module.path).Nodup ∧ r.order.getLast? = some m ∧
      (∀ pre m' post, r.order = pre ++ m' :: post → ∀ t ∈ m'.targets, t ∈ pre) ∧
      ∀ m₁ ∈ r.order, ∀ m₂ ∈ r.order, ∀ t₁ ∈ m₁.targets, ∀ t₂ ∈ m₂.targets,
        t₁.path = t₂.path → t₁ = t₂ := by
  have hcwd : ∀ x ∈ packageSample.cwd, Path.isPlain x = true := by decide
  obtain ⟨hfuel, hok⟩ := @Workspace.resolve_order packageSample "app" hcwd
  obtain ⟨m, r, hres, hlen⟩ := packageSample_resolve_ok
  exact ⟨hcwd, hfuel, m, r, hres, hlen, hok m r hres⟩

theorem packageSample_resolve_acyclic :
    (∀ x ∈ packageSample.cwd, Path.isPlain x = true) ∧
    (∀ chain, packageSample.resolve "app" = .error (.importCycle chain) →
      packageSample.IsCycle chain) ∧
    ∃ m r, packageSample.resolve "app" = .ok (m, r) ∧
      ∀ c, Relation.ReflTransGen packageSample.Imports m.path c →
        ¬Relation.TransGen packageSample.Imports c c := by
  have hcwd : ∀ x ∈ packageSample.cwd, Path.isPlain x = true := by decide
  obtain ⟨hcycle, hok⟩ := @Workspace.resolve_acyclic packageSample "app" hcwd
  obtain ⟨m, r, hres, -⟩ := packageSample_resolve_ok
  exact ⟨hcwd, hcycle, m, r, hres, hok m r hres⟩

end ModularC
