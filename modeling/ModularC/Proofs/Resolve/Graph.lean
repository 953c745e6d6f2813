import Mathlib.Data.List.Chain
import Mathlib.Logic.Relation
import ModularC.Proofs.Resolve.Agrees
import ModularC.Proofs.Resolve.Places
import ModularC.Proofs.Resolve.WellFormed
import ModularC.Proofs.Syntax.Grammar

/-!
The import graph of a workspace, and the invariants of resolution over it.
-/

namespace ModularC

theorem List.Forall₂.exists_mem_left {α β : Type} {R : α → β → Prop} {xs : List α} {ys : List β}
    (h : List.Forall₂ R xs ys) : ∀ x ∈ xs, ∃ y ∈ ys, R x y := by
  induction h with
  | nil =>
    intro x hx
    cases hx
  | cons hxy _ ih =>
    intro x hx
    rcases List.mem_cons.1 hx with rfl | hx
    · exact ⟨_, List.mem_cons_self, hxy⟩
    · obtain ⟨y, hy, hr⟩ := ih x hx
      exact ⟨y, List.mem_cons_of_mem _ hy, hr⟩

theorem List.Forall₂.exists_mem_right {α β : Type} {R : α → β → Prop} {xs : List α}
    {ys : List β} (h : List.Forall₂ R xs ys) : ∀ y ∈ ys, ∃ x ∈ xs, R x y :=
  List.Forall₂.exists_mem_left (List.Forall₂.flip (R := flip R) h)

theorem List.eq_append_cons_of_concat {α : Type} {l pre post : List α} {x m : α}
    (h : l ++ [x] = pre ++ m :: post) :
    (pre = l ∧ m = x ∧ post = []) ∨ ∃ post', post = post' ++ [x] ∧ l = pre ++ m :: post' := by
  rcases List.eq_nil_or_concat post with rfl | ⟨post', y, rfl⟩
  · obtain ⟨hpre, hm⟩ := List.append_inj' h rfl
    simp only [List.cons.injEq, and_true] at hm
    exact .inl ⟨hpre.symm, hm.symm, rfl⟩
  · rw [List.concat_eq_append, ← List.cons_append, ← List.append_assoc] at h
    obtain ⟨hl, hy⟩ := List.append_inj' h rfl
    simp only [List.cons.injEq, and_true] at hy
    exact .inr ⟨post', by rw [List.concat_eq_append, hy], hl⟩

/-- The modules that the imports of a module point to. -/
def Module.targets (m : Module) : List Module :=
  m.elements.filterMap fun
    | .import_ i => i.target
    | _ => none

theorem Module.mem_targets {m t : Module} :
    t ∈ m.targets ↔ ∃ i, Element.import_ i ∈ m.elements ∧ i.target = some t := by
  unfold Module.targets
  rw [List.mem_filterMap]
  constructor
  · rintro ⟨e, he, ht⟩
    cases e with
    | import_ i => exact ⟨i, he, ht⟩
    | _ => cases ht
  · rintro ⟨i, hi, ht⟩
    exact ⟨_, hi, ht⟩

namespace Resolver

theorem import_mem_linkImports {targets : List (String × Module)} {m : Module} {i : Import}
    (h : Element.import_ i ∈ (linkImports targets m).elements) :
    ∃ j, Element.import_ j ∈ m.elements ∧ i = { j with target := targets.lookup j.path } := by
  simp only [linkImports, List.mem_map] at h
  obtain ⟨e, he, heq⟩ := h
  split at heq
  next j =>
    cases heq
    exact ⟨j, he, rfl⟩
  next hne => exact absurd heq (hne i)

theorem targets_linkImports {targets : List (String × Module)} {m t : Module}
    (h : t ∈ (linkImports targets m).targets) : t ∈ targets.map Prod.snd := by
  obtain ⟨i, hi, ht⟩ := Module.mem_targets.1 h
  obtain ⟨j, -, rfl⟩ := import_mem_linkImports hi
  obtain ⟨l₁, l₂, hl, -⟩ := List.lookup_eq_some_iff.1 ht
  exact List.mem_map.2 ⟨(j.path, t), by rw [hl]; simp, rfl⟩

theorem targets_merge {name path : String} {parts : List Module} {t : Module}
    (h : t ∈ (merge name path parts).targets) : ∃ p ∈ parts, t ∈ p.targets := by
  obtain ⟨i, hi, ht⟩ := Module.mem_targets.1 h
  obtain ⟨p, hp, he⟩ := mem_merge hi
  exact ⟨p, hp, Module.mem_targets.2 ⟨i, he, ht⟩⟩

theorem targets_parseMembers {pending : List Member} {parts : List Module}
    (h : parseMembers pending = .ok parts) :
    ∀ p ∈ parts, ∀ t ∈ p.targets, ∃ m ∈ pending, t ∈ m.imports.map Prod.snd := by
  unfold parseMembers at h
  refine mem_of_mapM_eq_ok (fun x hx y hy => ?_) h
  obtain ⟨m, i⟩ := x
  obtain ⟨parsed, -, hy⟩ := Except.bind_eq_ok hy
  cases hy
  exact fun t ht => ⟨m, List.fst_mem_of_mem_zipIdx hx, targets_linkImports ht⟩

theorem exists_of_mapM_eq_error {α β ε : Type} {f : α → Except ε β} :
    ∀ {xs : List α} {e : ε}, xs.mapM f = .error e → ∃ x ∈ xs, f x = .error e
  | [], _, h => by cases h
  | x :: xs, e, h => by
    rw [List.mapM_cons] at h
    cases hx : f x with
    | error e' =>
      rw [hx] at h
      cases h
      exact ⟨x, List.mem_cons_self, hx⟩
    | ok y =>
      rw [hx] at h
      cases hxs : xs.mapM f with
      | error e' =>
        rw [hxs] at h
        cases h
        obtain ⟨x', hx', hfx⟩ := exists_of_mapM_eq_error hxs
        exact ⟨x', List.mem_cons_of_mem _ hx', hfx⟩
      | ok ys =>
        rw [hxs] at h
        cases h

theorem eq_error_of_bind_pure {α β ε : Type} {x : Except ε α} {g : α → β} {e : ε}
    (h : (x >>= fun a => pure (g a)) = .error e) : x = .error e := by
  cases x with
  | error e' =>
    cases h
    rfl
  | ok a => cases h

theorem parseMembers_pos? {pending : List Member} {e : Error} (h : parseMembers pending = .error e) :
    e.pos?.isSome = true := by
  unfold parseMembers at h
  obtain ⟨⟨m, i⟩, -, hm⟩ := exists_of_mapM_eq_error h
  dsimp only at hm
  exact Module.ofTokens_pos? (eq_error_of_bind_pure hm)

end Resolver

namespace Workspace

variable (w : Workspace)

/-- `c` is the canonical path that an import written in `text`, a file of the directory `dir`,
resolves to. -/
def ImportsFrom (dir text c : String) : Prop :=
  ∃ p ∈ surveyImports (tokenize text), ∃ cand,
    (w.resolver.bases p dir).findSome? w.resolver.candidate = some cand ∧
      w.tree.canonicalize w.cwd cand = .ok c

/-- The import graph: `c'` is the canonical path that an import written in a file of the module
at `c` resolves to, a member's file for a package. -/
def Imports (c c' : String) : Prop :=
  ∃ f ∈ (w.resolver.plan c).1, ∃ text, w.tree.read w.cwd f = .ok text ∧
    w.ImportsFrom (w.resolver.plan c).2 text c'

/-- A cycle of the import graph: it ends where it starts, its other entries are distinct, and each
entry imports the next. -/
def IsCycle (chain : List String) : Prop :=
  ∃ c mid, chain = c :: mid ++ [c] ∧ (c :: mid).Nodup ∧ chain.IsChain w.Imports

/-- An error that reports an import cycle reports a cycle of the import graph. -/
def CycleError (e : Error) : Prop := ∀ chain, e = .importCycle chain → w.IsCycle chain

theorem cycleError_of_pos? {e : Error} (h : e.pos?.isSome = true) : w.CycleError e := by
  rintro chain rfl
  cases h

/-- A resolver working in `w` with the places `ip` in progress: the cache holds the modules listed,
each under its own path; no path is listed twice, or both listed and in progress; and each module
is listed after the modules its imports point to and after every path its files import. -/
structure Ready (ip : List String) (r : Resolver) : Prop where
  config : r.config = w.config
  tree : r.tree = w.tree
  cwd : r.cwd = w.cwd
  stack : r.inProgress = ip
  cache : r.cache = (r.order.map fun m => (m.path, m)).reverse
  nodup : (r.order.map Module.path).Nodup
  fresh : ∀ c ∈ ip, c ∉ r.order.map Module.path
  targets : ∀ pre m post, r.order = pre ++ m :: post → ∀ t ∈ m.targets, t ∈ pre
  importedBefore : ∀ pre m post, r.order = pre ++ m :: post → ∀ c, w.Imports m.path c →
    c ∈ pre.map Module.path

/-- The places in progress are distinct places of the tree, each importing the next, and there
is room for `d` more. -/
structure Stack (ip : List String) (d : Nat) : Prop where
  nodup : ip.Nodup
  places : ∀ c ∈ ip, c ∈ w.tree.places.map Tree.render
  room : w.tree.places.length ≤ ip.length + d
  chain : ip.IsChain w.Imports

variable {w}

section Place

variable {r : Resolver}

theorem plan_eq (hc : r.config = w.config) (ht : r.tree = w.tree) (hd : r.cwd = w.cwd) :
    r.plan = w.resolver.plan := by
  funext c
  unfold Resolver.plan
  rw [ht, hd, hc]
  rfl

theorem candidate_eq (ht : r.tree = w.tree) (hd : r.cwd = w.cwd) :
    r.candidate = w.resolver.candidate := by
  funext c
  unfold Resolver.candidate
  rw [ht, hd]
  rfl

theorem bases_eq (hc : r.config = w.config) : r.bases = w.resolver.bases := by
  funext p dir
  unfold Resolver.bases
  rw [hc]
  rfl

end Place

namespace Ready

variable {ip : List String} {r : Resolver}

theorem start : w.Ready [] w.resolver where
  config := rfl
  tree := rfl
  cwd := rfl
  stack := rfl
  cache := rfl
  nodup := List.nodup_nil
  fresh _ h := by cases h
  targets _ _ _ h := by simp [Workspace.resolver, Resolver.start] at h
  importedBefore _ _ _ h := by simp [Workspace.resolver, Resolver.start] at h

theorem plan (h : w.Ready ip r) : r.plan = w.resolver.plan := plan_eq h.config h.tree h.cwd

theorem candidate (h : w.Ready ip r) : r.candidate = w.resolver.candidate :=
  candidate_eq h.tree h.cwd

theorem bases (h : w.Ready ip r) : r.bases = w.resolver.bases := bases_eq h.config

theorem lookup_eq_some (h : w.Ready ip r) {c : String} {m : Module}
    (hl : r.cache.lookup c = some m) : m ∈ r.order ∧ m.path = c := by
  obtain ⟨l₁, l₂, hl, -⟩ := List.lookup_eq_some_iff.1 hl
  have hmem : (c, m) ∈ r.cache := by rw [hl]; simp
  rw [h.cache, List.mem_reverse, List.mem_map] at hmem
  obtain ⟨m', hm', heq⟩ := hmem
  cases heq
  exact ⟨hm', rfl⟩

theorem lookup_eq_none (h : w.Ready ip r) {c : String} (hl : r.cache.lookup c = none) :
    c ∉ r.order.map Module.path := by
  intro hc
  obtain ⟨m, hm, rfl⟩ := List.mem_map.1 hc
  have hne := List.lookup_eq_none_iff.1 hl (m.path, m) (by rw [h.cache]; simp [hm])
  simp at hne

theorem enter (h : w.Ready ip r) {c : String} (hc : c ∉ r.order.map Module.path) :
    w.Ready (ip ++ [c]) { r with inProgress := ip ++ [c] } where
  config := h.config
  tree := h.tree
  cwd := h.cwd
  stack := rfl
  cache := h.cache
  nodup := h.nodup
  fresh c' hc' := by
    rcases List.mem_append.1 hc' with hc' | hc'
    · exact h.fresh c' hc'
    · rw [List.mem_singleton] at hc'
      exact hc' ▸ hc
  targets := h.targets
  importedBefore := h.importedBefore

theorem finish {c : String} (h : w.Ready (ip ++ [c]) r) (hc : c ∉ ip) {m : Module}
    (hm : m.path = c) (htargets : ∀ t ∈ m.targets, t ∈ r.order)
    (himports : ∀ c', w.Imports c c' → c' ∈ r.order.map Module.path) :
    w.Ready ip { r with
      inProgress := r.inProgress.dropLast, cache := (c, m) :: r.cache, order := r.order ++ [m] } where
  config := h.config
  tree := h.tree
  cwd := h.cwd
  stack := by rw [h.stack, List.dropLast_concat]
  cache := by simp [h.cache, hm]
  nodup := by
    rw [List.map_append, List.map_singleton, hm, ← List.concat_eq_append]
    exact h.nodup.concat (h.fresh c (by simp))
  fresh c' hc' := by
    rw [List.map_append, List.map_singleton, List.mem_append, List.mem_singleton, hm]
    rintro (hc'' | rfl)
    · exact h.fresh c' (List.mem_append_left _ hc') hc''
    · exact hc hc'
  targets pre m' post hsplit := by
    rcases List.eq_append_cons_of_concat hsplit with ⟨rfl, rfl, rfl⟩ | ⟨post', rfl, hl⟩
    · exact htargets
    · exact h.targets pre m' post' hl
  importedBefore pre m' post hsplit := by
    rcases List.eq_append_cons_of_concat hsplit with ⟨rfl, rfl, rfl⟩ | ⟨post', rfl, hl⟩
    · exact hm ▸ himports
    · exact h.importedBefore pre m' post' hl

theorem imports_idxOf_lt (h : w.Ready ip r) {a b : String} (ha : a ∈ r.order.map Module.path)
    (hab : w.Imports a b) : b ∈ r.order.map Module.path ∧
      (r.order.map Module.path).idxOf b < (r.order.map Module.path).idxOf a := by
  obtain ⟨m, hm, rfl⟩ := List.mem_map.1 ha
  obtain ⟨pre, post, hsplit⟩ := List.append_of_mem hm
  have hb := h.importedBefore pre m post hsplit b hab
  have hnodup := h.nodup
  rw [hsplit, List.map_append, List.map_cons] at hnodup ⊢
  have hfirst : m.path ∉ pre.map Module.path := fun hin =>
    (List.nodup_append.1 hnodup).2.2 _ hin _ List.mem_cons_self rfl
  refine ⟨List.mem_append_left _ hb, ?_⟩
  rw [List.idxOf_append_of_mem hb, List.idxOf_append_of_notMem hfirst, List.idxOf_cons_self]
  exact Nat.lt_of_lt_of_le (List.idxOf_lt_length_of_mem hb) (Nat.le_add_right _ _)

theorem transGen_idxOf_lt (h : w.Ready ip r) {a b : String} (hab : Relation.TransGen w.Imports a b)
    (ha : a ∈ r.order.map Module.path) : b ∈ r.order.map Module.path ∧
      (r.order.map Module.path).idxOf b < (r.order.map Module.path).idxOf a := by
  induction hab with
  | single hab => exact h.imports_idxOf_lt ha hab
  | tail _ hbc ih =>
    obtain ⟨hb, hlt⟩ := ih
    obtain ⟨hc, hlt'⟩ := h.imports_idxOf_lt hb hbc
    exact ⟨hc, hlt'.trans hlt⟩

theorem mem_of_reflTransGen (h : w.Ready ip r) {a b : String}
    (hab : Relation.ReflTransGen w.Imports a b) (ha : a ∈ r.order.map Module.path) :
    b ∈ r.order.map Module.path := by
  induction hab with
  | refl => exact ha
  | tail _ hbc ih => exact (h.imports_idxOf_lt ih hbc).1

theorem not_transGen_self (h : w.Ready ip r) {c : String} (hc : c ∈ r.order.map Module.path) :
    ¬Relation.TransGen w.Imports c c :=
  fun hcc => lt_irrefl _ (h.transGen_idxOf_lt hcc hc).2

end Ready

namespace Stack

variable {ip : List String} {d : Nat}

theorem nil : w.Stack [] w.tree.places.length where
  nodup := List.nodup_nil
  places _ h := by cases h
  room := by simp
  chain := List.IsChain.nil

theorem push (hs : w.Stack ip d) {c : String} (hc : c ∉ ip)
    (hplace : c ∈ w.tree.places.map Tree.render) (hto : ∀ l ∈ ip.getLast?, w.Imports l c) :
    ∃ e, d = e + 1 ∧ w.Stack (ip ++ [c]) e := by
  have hnodup : (ip ++ [c]).Nodup := by
    rw [← List.concat_eq_append]
    exact hs.nodup.concat hc
  have hsub : ip ++ [c] ⊆ w.tree.places.map Tree.render := by
    intro x hx
    rcases List.mem_append.1 hx with hx | hx
    · exact hs.places x hx
    · rw [List.mem_singleton] at hx
      exact hx ▸ hplace
  have hlen := hnodup.length_le_of_subset hsub
  rw [List.length_map, List.length_append, List.length_singleton] at hlen
  have hroom := hs.room
  refine ⟨d - 1, by omega, hnodup, hsub, by simp; omega, ?_⟩
  exact hs.chain.append (List.isChain_singleton c) fun l hl y hy => by
    simp only [List.head?_cons, Option.mem_def, Option.some.injEq] at hy
    exact hy ▸ hto l hl

/-- A place met again while in progress closes a cycle, from where it stands in the stack. -/
theorem isCycle (hs : w.Stack ip d) {c : String} {i : Nat} (hi : ip.idxOf? c = some i)
    (hto : ∀ l ∈ ip.getLast?, w.Imports l c) : w.IsCycle (ip.drop i ++ [c]) := by
  obtain ⟨hlt, hget, -⟩ := List.idxOf?_eq_some_iff.1 hi
  have hdrop : ip.drop i = c :: ip.drop (i + 1) := by
    rw [List.drop_eq_getElem_cons hlt, hget]
  refine ⟨c, ip.drop (i + 1), by rw [hdrop, List.cons_append], ?_, ?_⟩
  · exact hdrop ▸ hs.nodup.sublist (List.drop_sublist i ip)
  · refine (hs.chain.drop i).append (List.isChain_singleton c) fun l hl y hy => ?_
    rw [List.getLast?_drop, if_neg (by omega)] at hl
    simp only [List.head?_cons, Option.mem_def, Option.some.injEq] at hy
    exact hy ▸ hto l hl

end Stack

end Workspace

end ModularC
