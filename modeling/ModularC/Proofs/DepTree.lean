import ModularC.DepTree

/-!
The import tree, line by line: one line per path of imports, in depth-first order
(`Module.depTree_lines`).
-/

namespace ModularC

/-- The import an element is, if it is one. -/
def Element.import? : Element → Option Import
  | .import_ i => some i
  | _ => none

theorem Element.import?_eq_none {e : Element} : e.import? = none ↔ e.isImport = false := by
  cases e <;> simp [Element.import?, Element.isImport]

theorem Module.imports_eq (m : Module) : m.imports = m.elements.filterMap Element.import? := rfl

theorem filterMap_import?_eq_nil {es : List Element} :
    es.filterMap Element.import? = [] ↔ es.any Element.isImport = false := by
  simp [List.filterMap_eq_nil_iff, Element.import?_eq_none]

/-- The label of an import's line: the name of the module it resolved to, or its path. -/
def Import.label : Import → String
  | ⟨_, _, some m⟩ => m.name
  | ⟨path, _, none⟩ => path

namespace ImportTree

/-- The imports met along a path of positions that starts in the import list `is`, each with
whether it is the last of its list. The walk stops at a position past its list, and after an
unresolved import. -/
def walk (is : List Import) : List Nat → List (Import × Bool)
  | [] => []
  | k :: ks =>
    match is[k]? with
    | none => []
    | some ⟨path, pos, some c⟩ => (⟨path, pos, some c⟩, k + 1 == is.length) :: walk c.imports ks
    | some ⟨path, pos, none⟩ => [(⟨path, pos, none⟩, k + 1 == is.length)]

/-- What stands below an import on the lines under it: a rail, or blank under a last import. -/
def rail (last : Bool) : String := if last then "  " else "│ "

/-- What stands before an import's label. -/
def corner (last : Bool) : String := if last then "└ " else "├ "

/-- The line drawn for the imports met along a path: a rail for each import above the last, the
last one's corner and label, and a line break. -/
def line (steps : List (Import × Bool)) : String :=
  match steps.getLast? with
  | none => ""
  | some (i, last) =>
    String.join (steps.dropLast.map fun s => rail s.2) ++ corner last ++ i.label ++ "\n"

theorem line_singleton (i : Import) (last : Bool) :
    line [(i, last)] = corner last ++ i.label ++ "\n" := by
  simp [line]

theorem line_cons (s : Import × Bool) {steps : List (Import × Bool)} (h : steps ≠ []) :
    line (s :: steps) = rail s.2 ++ line steps := by
  obtain ⟨init, x, rfl⟩ := List.eq_nil_or_concat steps |>.resolve_left h
  rw [List.concat_eq_append, ← List.cons_append]
  simp only [line, List.getLast?_concat, List.dropLast_concat, List.map_cons, String.join_cons,
    String.append_assoc]

end ImportTree

open ImportTree

/-- The imports met along a path of positions from a module. -/
def Module.walk (m : Module) (path : List Nat) : List (Import × Bool) :=
  ImportTree.walk m.imports path

/-- A path leads from the module to an import: it is not empty, and the walk along it takes
every step. -/
def Module.Reaches (m : Module) (path : List Nat) : Prop :=
  path ≠ [] ∧ (m.walk path).length = path.length

mutual

/-- The paths to the imports reachable from a module, in depth-first order. -/
def Module.importPaths : Module → List (List Nat)
  | ⟨_, _, es, _⟩ => Element.importPaths 0 es

/-- The paths to the imports reachable through `es`, whose first import has position `k`. -/
def Element.importPaths (k : Nat) : List Element → List (List Nat)
  | [] => []
  | .import_ ⟨_, _, some c⟩ :: es =>
    ([k] :: (Module.importPaths c).map (k :: ·)) ++ Element.importPaths (k + 1) es
  | .import_ ⟨_, _, none⟩ :: es => [k] :: Element.importPaths (k + 1) es
  | _ :: es => Element.importPaths k es

end

namespace ImportTree

theorem walk_resolved {is : List Import} {k : Nat} {path : String} {pos : Position} {c : Module}
    (h : is[k]? = some ⟨path, pos, some c⟩) (ks : List Nat) :
    walk is (k :: ks) = (⟨path, pos, some c⟩, k + 1 == is.length) :: walk c.imports ks := by
  simp [walk, h]

theorem walk_unresolved {is : List Import} {k : Nat} {path : String} {pos : Position}
    (h : is[k]? = some ⟨path, pos, none⟩) (ks : List Nat) :
    walk is (k :: ks) = [(⟨path, pos, none⟩, k + 1 == is.length)] := by
  simp [walk, h]

theorem walk_length_cons {is : List Import} {k : Nat} {i : Import} (h : is[k]? = some i)
    (ks : List Nat) :
    (walk is (k :: ks)).length = ks.length + 1 ↔
      ks = [] ∨ ∃ c, i.target = some c ∧ c.Reaches ks := by
  obtain ⟨path, pos, target⟩ := i
  cases target with
  | none =>
    rw [walk_unresolved h]
    simp
  | some c =>
    rw [walk_resolved h]
    cases ks with
    | nil => simp [walk]
    | cons k' ks => simp [Module.Reaches, Module.walk]

end ImportTree

theorem Element.head_importPaths {k : Nat} {es : List Element} {a : List Nat}
    (h : a ∈ Element.importPaths k es) : ∃ j ks, a = (k + j) :: ks := by
  induction es generalizing k with
  | nil => simp [Element.importPaths] at h
  | cons e es ih =>
    cases e with
    | import_ i =>
      obtain ⟨path, pos, target⟩ := i
      have hnext : a ∈ Element.importPaths (k + 1) es → ∃ j ks, a = (k + j) :: ks := fun h => by
        obtain ⟨j, ks, rfl⟩ := ih h
        exact ⟨j + 1, ks, by rw [Nat.add_assoc, Nat.add_comm 1 j]⟩
      cases target with
      | none =>
        simp only [Element.importPaths, List.mem_cons] at h
        rcases h with rfl | h
        · exact ⟨0, [], rfl⟩
        · exact hnext h
      | some c =>
        simp only [Element.importPaths, List.cons_append, List.mem_cons, List.mem_append] at h
        rcases h with rfl | h | h
        · exact ⟨0, [], rfl⟩
        · obtain ⟨a', -, rfl⟩ := List.mem_map.mp h
          exact ⟨0, a', rfl⟩
        · exact hnext h
    | _ =>
      simp only [Element.importPaths] at h
      exact ih h

theorem mem_import_block {is : List Import} {k : Nat} {i : Import} (hget : is[k]? = some i)
    {below rest : List (List Nat)}
    (hbelow : ∀ ks, ks ∈ below ↔ ∃ c, i.target = some c ∧ c.Reaches ks)
    (hrest : ∀ a, a ∈ rest ↔ (∃ j ks, a = (k + 1 + j) :: ks) ∧ (walk is a).length = a.length)
    (a : List Nat) :
    a ∈ [k] :: (below.map (k :: ·) ++ rest) ↔
      (∃ j ks, a = (k + j) :: ks) ∧ (walk is a).length = a.length := by
  constructor
  · intro h
    rcases List.mem_cons.mp h with rfl | h
    · exact ⟨⟨0, [], rfl⟩, (walk_length_cons hget []).mpr (.inl rfl)⟩
    rcases List.mem_append.mp h with h | h
    · obtain ⟨ks, hks, rfl⟩ := List.mem_map.mp h
      exact ⟨⟨0, ks, rfl⟩, (walk_length_cons hget ks).mpr (.inr ((hbelow ks).mp hks))⟩
    · obtain ⟨⟨j, ks, rfl⟩, hlen⟩ := (hrest a).mp h
      exact ⟨⟨1 + j, ks, by rw [Nat.add_assoc]⟩, hlen⟩
  · rintro ⟨⟨j, ks, rfl⟩, hlen⟩
    cases j with
    | zero =>
      rcases (walk_length_cons hget ks).mp hlen with rfl | hc
      · exact List.mem_cons_self
      · exact List.mem_cons_of_mem _
          (List.mem_append_left _ (List.mem_map_of_mem ((hbelow ks).mpr hc)))
    | succ j =>
      have hhead : (k + (j + 1)) :: ks = (k + 1 + j) :: ks := by
        rw [Nat.add_right_comm, Nat.add_assoc]
      exact List.mem_cons_of_mem _
        (List.mem_append_right _ ((hrest _).mpr ⟨⟨j, ks, hhead⟩, hlen⟩))

mutual

theorem Module.mem_importPaths : ∀ (m : Module) (a : List Nat), a ∈ m.importPaths ↔ m.Reaches a
  | ⟨_, _, es, _⟩, a => by
    have h := Element.mem_importPaths [] es a
    simp only [List.length_nil, List.nil_append, Nat.zero_add] at h
    rw [Module.importPaths, h]
    simp only [Module.Reaches, Module.walk, Module.imports_eq]
    constructor
    · rintro ⟨⟨j, ks, rfl⟩, hlen⟩
      exact ⟨List.cons_ne_nil _ _, hlen⟩
    · rintro ⟨hne, hlen⟩
      obtain ⟨j, ks, rfl⟩ := List.exists_cons_of_ne_nil hne
      exact ⟨⟨j, ks, rfl⟩, hlen⟩

theorem Element.mem_importPaths (pre : List Import) : ∀ (es : List Element) (a : List Nat),
    a ∈ Element.importPaths pre.length es ↔
      (∃ j ks, a = (pre.length + j) :: ks) ∧
        (walk (pre ++ es.filterMap Element.import?) a).length = a.length
  | [], a => by
    simp only [Element.importPaths, List.not_mem_nil, List.filterMap_nil, List.append_nil,
      false_iff, not_and]
    rintro ⟨j, ks, rfl⟩
    simp [walk]
  | .import_ ⟨path, pos, some c⟩ :: es, a => by
    have hrest := Element.mem_importPaths (pre ++ [⟨path, pos, some c⟩]) es
    simp only [List.length_append, List.length_singleton, List.append_assoc,
      List.singleton_append] at hrest
    have hget : (pre ++ ⟨path, pos, some c⟩ :: es.filterMap Element.import?)[pre.length]? =
        some ⟨path, pos, some c⟩ := by simp
    simp only [Element.importPaths, List.filterMap_cons, Element.import?, List.cons_append]
    exact mem_import_block hget (fun ks => by simp [Module.mem_importPaths c ks]) hrest a
  | .import_ ⟨path, pos, none⟩ :: es, a => by
    have hrest := Element.mem_importPaths (pre ++ [⟨path, pos, none⟩]) es
    simp only [List.length_append, List.length_singleton, List.append_assoc,
      List.singleton_append] at hrest
    have hget : (pre ++ ⟨path, pos, none⟩ :: es.filterMap Element.import?)[pre.length]? =
        some ⟨path, pos, none⟩ := by simp
    have h := mem_import_block hget (fun ks => by simp : ∀ ks, ks ∈ ([] : List (List Nat)) ↔ _)
      hrest a
    simp only [List.map_nil, List.nil_append] at h
    simpa only [Element.importPaths, List.filterMap_cons, Element.import?] using h
  | .header d :: es, a | .directive d :: es, a | .typeDirective d :: es, a | .link d :: es, a
  | .typedef d :: es, a | .recordForward d _ :: es, a | .recordDef d _ _ _ :: es, a
  | .enumDef d _ _ :: es, a | .function d :: es, a | .global d :: es, a => by
    have h := Element.mem_importPaths pre es a
    simpa only [Element.importPaths, List.filterMap_cons, Element.import?] using h

end

theorem import_block_sorted {k : Nat} {below rest : List (List Nat)} (hne : [] ∉ below)
    (hbelow : below.Pairwise (· < ·)) (hrest : rest.Pairwise (· < ·))
    (hheads : ∀ a ∈ rest, ∃ j ks, a = (k + 1 + j) :: ks) :
    ([k] :: (below.map (k :: ·) ++ rest)).Pairwise (· < ·) := by
  have hlater : ∀ l, ∀ a ∈ rest, k :: l < a := by
    intro l a ha
    obtain ⟨j, ks, rfl⟩ := hheads a ha
    exact List.Lex.rel (by omega)
  refine List.pairwise_cons.mpr ⟨?_, List.pairwise_append.mpr ⟨?_, hrest, ?_⟩⟩
  · intro a ha
    rcases List.mem_append.mp ha with ha | ha
    · obtain ⟨ks, hks, rfl⟩ := List.mem_map.mp ha
      obtain ⟨x, xs, rfl⟩ := List.exists_cons_of_ne_nil (fun h => hne (h ▸ hks))
      exact List.Lex.cons List.Lex.nil
    · exact hlater [] a ha
  · exact List.pairwise_map.mpr (hbelow.imp List.Lex.cons)
  · intro a ha b hb
    obtain ⟨ks, -, rfl⟩ := List.mem_map.mp ha
    exact hlater ks b hb

theorem Module.nil_not_mem_importPaths (m : Module) : [] ∉ m.importPaths := fun h =>
  ((Module.mem_importPaths m []).mp h).1 rfl

mutual

theorem Module.importPaths_sorted : ∀ m : Module, m.importPaths.Pairwise (· < ·)
  | ⟨_, _, es, _⟩ => by
    simpa only [Module.importPaths] using Element.importPaths_sorted 0 es

theorem Element.importPaths_sorted (k : Nat) :
    ∀ es : List Element, (Element.importPaths k es).Pairwise (· < ·)
  | [] => by simp [Element.importPaths]
  | .import_ ⟨_, _, some c⟩ :: es => by
    simp only [Element.importPaths, List.cons_append]
    exact import_block_sorted (Module.nil_not_mem_importPaths c) (Module.importPaths_sorted c)
      (Element.importPaths_sorted (k + 1) es) fun _ => Element.head_importPaths
  | .import_ ⟨_, _, none⟩ :: es => by
    have h := import_block_sorted (List.not_mem_nil (a := [])) List.Pairwise.nil
      (Element.importPaths_sorted (k + 1) es) fun _ => Element.head_importPaths
    simpa only [Element.importPaths, List.map_nil, List.nil_append] using h
  | .header _ :: es | .directive _ :: es | .typeDirective _ :: es | .link _ :: es
  | .typedef _ :: es | .recordForward _ _ :: es | .recordDef _ _ _ _ :: es
  | .enumDef _ _ _ :: es | .function _ :: es | .global _ :: es => by
    simpa only [Element.importPaths] using Element.importPaths_sorted k es

end

theorem last_eq_not_any {pre : List Import} {i : Import} {es : List Element} :
    (pre.length + 1 == (pre ++ i :: es.filterMap Element.import?).length) =
      !es.any Element.isImport := by
  have hnil : (es.filterMap Element.import?).length = 0 ↔ es.any Element.isImport = false :=
    List.length_eq_zero_iff.trans filterMap_import?_eq_nil
  rw [List.length_append, List.length_cons]
  cases hany : es.any Element.isImport with
  | false =>
    rw [hnil.mpr hany, Bool.not_false, beq_iff_eq]
  | true =>
    have hpos : (es.filterMap Element.import?).length ≠ 0 := fun h => by
      rw [hnil.mp h] at hany
      cases hany
    rw [Bool.not_true, beq_eq_false_iff_ne]
    omega

theorem line_walk_below {is : List Import} {k : Nat} {path : String} {pos : Position}
    {c : Module} (hget : is[k]? = some ⟨path, pos, some c⟩) {a : List Nat} (ha : c.Reaches a) :
    line (walk is (k :: a)) = rail (k + 1 == is.length) ++ line (c.walk a) := by
  have hne : c.walk a ≠ [] := fun h => ha.1 (List.length_eq_zero_iff.mp (ha.2 ▸ h ▸ rfl))
  rw [walk_resolved hget]
  exact line_cons _ hne

theorem join_lines_below {is : List Import} {k : Nat} {path : String} {pos : Position}
    {c : Module} (hget : is[k]? = some ⟨path, pos, some c⟩) (rails : String) :
    String.join ((c.importPaths.map (k :: ·)).map fun a => rails ++ line (walk is a)) =
      String.join (c.importPaths.map fun a =>
        (rails ++ rail (k + 1 == is.length)) ++ line (c.walk a)) := by
  rw [List.map_map]
  congr 1
  refine List.map_congr_left fun a ha => ?_
  rw [Function.comp_apply, line_walk_below hget ((Module.mem_importPaths c a).mp ha),
    String.append_assoc]

mutual

theorem Module.treeLines_eq (rails : String) : ∀ m : Module,
    Module.treeLines rails m = String.join (m.importPaths.map fun a => rails ++ line (m.walk a))
  | ⟨_, _, es, _⟩ => by
    have h := Element.treeLines_eq rails [] es
    simp only [List.length_nil, List.nil_append] at h
    simpa only [Module.treeLines, Module.importPaths, Module.walk, Module.imports_eq] using h

theorem Element.treeLines_eq (rails : String) (pre : List Import) : ∀ es : List Element,
    Element.treeLines rails es = String.join ((Element.importPaths pre.length es).map fun a =>
      rails ++ line (walk (pre ++ es.filterMap Element.import?) a))
  | [] => by simp [Element.treeLines, Element.importPaths]
  | .import_ ⟨path, pos, some c⟩ :: es => by
    have hrest := Element.treeLines_eq rails (pre ++ [⟨path, pos, some c⟩]) es
    simp only [List.length_append, List.length_singleton, List.append_assoc,
      List.singleton_append] at hrest
    have hget : (pre ++ ⟨path, pos, some c⟩ :: es.filterMap Element.import?)[pre.length]? =
        some ⟨path, pos, some c⟩ := by simp
    simp only [Element.treeLines, Element.importPaths, List.filterMap_cons, Element.import?,
      List.cons_append, List.map_cons, List.map_append, String.join_cons, String.join_append]
    rw [join_lines_below hget, ← hrest, last_eq_not_any, ← Module.treeLines_eq,
      walk_resolved hget, walk, line_singleton, last_eq_not_any]
    simp only [corner, rail, Import.label, String.append_assoc]
  | .import_ ⟨path, pos, none⟩ :: es => by
    have hrest := Element.treeLines_eq rails (pre ++ [⟨path, pos, none⟩]) es
    simp only [List.length_append, List.length_singleton, List.append_assoc,
      List.singleton_append] at hrest
    have hget : (pre ++ ⟨path, pos, none⟩ :: es.filterMap Element.import?)[pre.length]? =
        some ⟨path, pos, none⟩ := by simp
    simp only [Element.treeLines, Element.importPaths, List.filterMap_cons, Element.import?,
      List.map_cons, String.join_cons]
    rw [← hrest, walk_unresolved hget, line_singleton, last_eq_not_any]
    simp only [corner, Import.label, String.append_assoc]
  | .header _ :: es | .directive _ :: es | .typeDirective _ :: es | .link _ :: es
  | .typedef _ :: es | .recordForward _ _ :: es | .recordDef _ _ _ _ :: es
  | .enumDef _ _ _ :: es | .function _ :: es | .global _ :: es => by
    simpa only [Element.treeLines, Element.importPaths, List.filterMap_cons, Element.import?]
      using Element.treeLines_eq rails pre es

end

/-- The import tree of a module is its name, then one line for each path from it to an import,
the paths in lexicographic order, which is depth-first order, each path once. -/
theorem Module.depTree_lines (m : Module) :
    ∃ paths : List (List Nat), paths.Pairwise (· < ·) ∧ (∀ a, a ∈ paths ↔ m.Reaches a) ∧
      m.depTree = m.name ++ "\n" ++ String.join (paths.map fun a => line (m.walk a)) := by
  refine ⟨m.importPaths, Module.importPaths_sorted m, Module.mem_importPaths m, ?_⟩
  rw [Module.depTree, Module.treeLines_eq]
  simp only [String.empty_append]

/-- A module that imports `B`, which imports `D`, and then `C`. -/
example :
    let leaf (n : String) : Module := ⟨n, "/" ++ n ++ ".c", [], []⟩
    let imp (m : Module) : Element := .import_ ⟨"./" ++ m.name, ⟨1, 1⟩, some m⟩
    Module.depTree ⟨"A", "/A.c", [imp ⟨"B", "/B.c", [imp (leaf "D")], []⟩, imp (leaf "C")], []⟩ =
      "A\n├ B\n│ └ D\n└ C\n" := by
  decide

end ModularC
