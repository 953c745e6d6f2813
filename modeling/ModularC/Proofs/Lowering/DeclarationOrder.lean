import ModularC.Build
import ModularC.Proofs.Lowering.NormalForm

/-!
Declarations before their uses, as far as the tiers of hoisting order them
(`Module.lower_declaresBeforeUse`).
-/

namespace ModularC

/-! ### Type parts written in an element -/

mutual

/-- The type parts an expression writes, in casts and `sizeof`. -/
def Expr.typeParts : Expr → List TypePart
  | .binary _ l r => l.typeParts ++ r.typeParts
  | .conditional c y n => c.typeParts ++ y.typeParts ++ n.typeParts
  | .unary _ a | .post _ a | .sizeofExpr a => a.typeParts
  | .cast t a => t.typeParts ++ a.typeParts
  | .sizeofType t => t.typeParts
  | .ident _ | .literal _ => []
  | .call f args => f.typeParts ++ Expr.typePartsAll args
  | .index b i => b.typeParts ++ i.typeParts
  | .arrayInit es => ArrayEntry.typePartsAll es
  | .structInit ms => MemberInit.typePartsAll ms

def Expr.typePartsAll : List Expr → List TypePart
  | [] => []
  | e :: es => e.typeParts ++ Expr.typePartsAll es

def ArrayEntry.typePartsAll : List ArrayEntry → List TypePart
  | [] => []
  | ⟨some i, v⟩ :: es => i.typeParts ++ v.typeParts ++ ArrayEntry.typePartsAll es
  | ⟨none, v⟩ :: es => v.typeParts ++ ArrayEntry.typePartsAll es

def MemberInit.typePartsAll : List MemberInit → List TypePart
  | [] => []
  | ⟨_, v⟩ :: ms => v.typeParts ++ MemberInit.typePartsAll ms

def CType.typeParts : CType → List TypePart
  | ⟨base, form⟩ => base.typeParts ++ form.typeParts

def BaseType.typeParts : BaseType → List TypePart
  | ⟨parts⟩ => TypePart.typePartsAll parts

/-- The parts, each followed by those written in its record body. -/
def TypePart.typePartsAll : List TypePart → List TypePart
  | [] => []
  | .record ⟨kind, tag, some body⟩ :: ps =>
    .record ⟨kind, tag, some body⟩ :: (body.typeParts ++ TypePart.typePartsAll ps)
  | p :: ps => p :: TypePart.typePartsAll ps

def RecordBody.typeParts : RecordBody → List TypePart
  | .fields ds => Declaration.typePartsAll ds
  | .enumerators es => Enumerator.typePartsAll es

def Enumerator.typePartsAll : List Enumerator → List TypePart
  | [] => []
  | ⟨_, some v⟩ :: es => v.typeParts ++ Enumerator.typePartsAll es
  | ⟨_, none⟩ :: es => Enumerator.typePartsAll es

def Declaration.typeParts : Declaration → List TypePart
  | ⟨base, ds⟩ => base.typeParts ++ Declarator.typePartsAll ds

def Declaration.typePartsAll : List Declaration → List TypePart
  | [] => []
  | d :: ds => d.typeParts ++ Declaration.typePartsAll ds

def Declarator.typePartsAll : List Declarator → List TypePart
  | [] => []
  | ⟨f, some e⟩ :: ds => f.typeParts ++ e.typeParts ++ Declarator.typePartsAll ds
  | ⟨f, none⟩ :: ds => f.typeParts ++ Declarator.typePartsAll ds

def Form.typeParts : Form → List TypePart
  | ⟨_, core, mods⟩ => core.typeParts ++ Modifier.typePartsAll mods

def FormCore.typeParts : FormCore → List TypePart
  | .nested f => f.typeParts
  | _ => []

def Modifier.typePartsAll : List Modifier → List TypePart
  | [] => []
  | .array (some e) :: ms => e.typeParts ++ Modifier.typePartsAll ms
  | .array none :: ms => Modifier.typePartsAll ms
  | .params ⟨ps, _⟩ :: ms => Param.typePartsAll ps ++ Modifier.typePartsAll ms

def Param.typePartsAll : List Param → List TypePart
  | [] => []
  | ⟨base, f⟩ :: ps => base.typeParts ++ f.typeParts ++ Param.typePartsAll ps

end

mutual

def Stmt.typeParts : Stmt → List TypePart
  | .block ss => Stmt.typePartsAll ss
  | .if_ c thn els =>
    c.typeParts ++ thn.typeParts ++ (match els with
      | some e => e.typeParts
      | none => [])
  | .while_ c body | .doWhile body c => c.typeParts ++ body.typeParts
  | .for_ init cond step body =>
    (match init with
      | some (.declaration d) => d.typeParts
      | some (.expr e) => e.typeParts
      | none => []) ++
    (match cond with
      | some e => e.typeParts
      | none => []) ++
    (match step with
      | some e => e.typeParts
      | none => []) ++ body.typeParts
  | .switch v cases => v.typeParts ++ Case.typePartsAll cases
  | .return_ (some e) | .defer e | .expr e => e.typeParts
  | .return_ none | .break_ | .continue_ | .empty => []
  | .declaration d => d.typeParts

def Stmt.typePartsAll : List Stmt → List TypePart
  | [] => []
  | s :: ss => s.typeParts ++ Stmt.typePartsAll ss

def Case.typePartsAll : List Case → List TypePart
  | [] => []
  | ⟨label, body⟩ :: cs =>
    (match label with
      | some l => l.typeParts
      | none => []) ++ Stmt.typePartsAll body ++ Case.typePartsAll cs

end

/-- The type parts an element writes anywhere: in its types, declarators, parameters,
initializers and body. -/
def Element.typeParts : Element → List TypePart
  | .typedef t => t.base.typeParts ++ t.form.typeParts
  | .recordDef _ _ _ fs => Declaration.typePartsAll fs
  | .enumDef _ _ es => Enumerator.typePartsAll es
  | .function f =>
    f.base.typeParts ++ f.form.typeParts ++ (match f.body with
      | some body => Stmt.typePartsAll body
      | none => [])
  | .global d => d.typeParts
  | _ => []

/-- The type names an element uses. -/
def Element.typeNamesUsed (e : Element) : List String :=
  e.typeParts.filterMap fun
    | .name n => some n
    | _ => none

/-- The enum tags an element names without a body, as in `enum e`. -/
def Element.enumTagsNamed (e : Element) : List String :=
  e.typeParts.filterMap fun
    | .record ⟨.enum, some tag, none⟩ => some tag
    | _ => none

/-- Whether the element is a typedef of the name `n`. -/
def Element.declaresTypedef (n : String) : Element → Bool
  | .typedef t => t.name? == some n
  | _ => false

/-- Whether the element defines the enum tagged `tag`. -/
def Element.definesEnum (tag : String) : Element → Bool
  | .enumDef _ name _ => name == tag
  | _ => false

/-- Every typedef name an element uses, and every enum tag it names, that the module declares is
declared before the element. -/
def Module.DeclaresBeforeUse (m : Module) : Prop :=
  ∀ pre e post, m.elements = pre ++ e :: post →
    (∀ n ∈ e.typeNamesUsed, (∃ x ∈ m.elements, x.declaresTypedef n = true) →
      ∃ x ∈ pre, x.declaresTypedef n = true) ∧
    (∀ tag ∈ e.enumTagsNamed, (∃ x ∈ m.elements, x.definesEnum tag = true) →
      ∃ x ∈ pre, x.definesEnum tag = true)

/-! ### What hoisting guarantees -/

theorem Element.two_le_tier_of_typeParts {e : Element} (h : e.typeParts ≠ []) : 2 ≤ e.tier := by
  cases e with
  | typedef _ | recordDef _ _ _ _ | enumDef _ _ _ | global _ => simp [Element.tier]
  | function f =>
    simp only [Element.tier]
    split <;> omega
  | import_ _ | header _ | directive _ | typeDirective _ | link _ | recordForward _ _ =>
    exact absurd rfl h

theorem Element.tier_eq_two {e : Element} (h : e.tier = 2) : ∃ t, e = .typedef t := by
  cases e with
  | typedef t => exact ⟨t, rfl⟩
  | function f =>
    simp only [Element.tier] at h
    split at h <;> omega
  | _ => simp [Element.tier] at h

theorem Element.tier_of_declaresTypedef {n : String} {x : Element} (h : x.declaresTypedef n = true) :
    x.tier = 2 := by
  cases x <;> simp_all [Element.declaresTypedef, Element.tier]

theorem Element.tier_of_definesEnum {tag : String} {x : Element} (h : x.definesEnum tag = true) :
    x.tier = 3 := by
  cases x <;> simp_all [Element.definesEnum, Element.tier]

theorem addPrototypes_eq_append (es : List Element) :
    ∃ ps, addPrototypes es = es ++ ps ∧ ∀ x ∈ ps, x.tier = 4 := by
  refine ⟨_, rfl, ?_⟩
  intro x hx
  obtain ⟨e, _, hx⟩ := List.mem_filterMap.mp hx
  cases e with
  | function f =>
    simp only [Option.ite_none_right_eq_some, Option.some.injEq] at hx
    simp [← hx.2, Element.tier, FunctionDef.forward]
  | _ => cases hx

theorem filter_tier_addPrototypes {k : Nat} (hk : k ≠ 0 ∧ k ≠ 4) (hs : List String)
    (es : List Element) :
    (addPrototypes (hs.map .header ++ es)).filter (·.tier == k) = es.filter (·.tier == k) := by
  obtain ⟨ps, hps, htier⟩ := addPrototypes_eq_append es
  have hheaders : (hs.map Element.header).filter (·.tier == k) = [] := by
    simp [List.filter_map, Function.comp_def, Element.tier, Ne.symm hk.1]
  have hprotos : ps.filter (·.tier == k) = [] :=
    List.filter_eq_nil_iff.mpr fun x hx => by simp [htier x hx, Ne.symm hk.2]
  rw [addPrototypes_headers_append, hps, List.filter_append, List.filter_append, hheaders, hprotos,
    List.nil_append, List.append_nil]

/-- Lowering puts every typedef before each use of its name outside typedefs, and every enum
definition before each prototype, function and variable (tiers four and five) that names its tag.
Typedefs, and struct, union and enum definitions, keep among themselves the order they have among
the C elements of the flattened module. -/
theorem Module.lower_declaresBeforeUse {m : Module} {l : Lowered} (h : m.lower = .ok l) :
    (∀ pre e post, l.module.elements = pre ++ e :: post → (∀ t, e ≠ .typedef t) →
      ∀ n ∈ e.typeNamesUsed, (∃ x ∈ l.module.elements, x.declaresTypedef n = true) →
        ∃ x ∈ pre, x.declaresTypedef n = true) ∧
    (∀ pre e post, l.module.elements = pre ++ e :: post → 3 < e.tier →
      ∀ tag ∈ e.enumTagsNamed, (∃ x ∈ l.module.elements, x.definesEnum tag = true) →
        ∃ x ∈ pre, x.definesEnum tag = true) ∧
    ∃ flat, flatten m.elements = .ok flat ∧ ∀ k, k = 2 ∨ k = 3 →
      (l.module.elements.filter (·.tier == k)).Sublist ((lowerElements flat).filter (·.tier == k)) := by
  obtain ⟨flat, hflat, -, hdedup⟩ := Module.lower_eq_ok h
  have hsorted := (hoist_pairwise_tier _).sublist (dedup_sublist hdedup)
  refine ⟨?typedefs, ?enums, flat, hflat, ?order⟩
  case typedefs =>
    intro pre e post heq hne n hn ⟨x, hx, hxn⟩
    -- `e` writes a type but is no typedef, so it is hoisted below all typedefs
    have hparts : e.typeParts ≠ [] := by
      intro hnil
      simp [Element.typeNamesUsed, hnil] at hn
    have htier : x.tier < e.tier := by
      have h2 := e.two_le_tier_of_typeParts hparts
      have hne2 : e.tier ≠ 2 := fun h2 => by
        obtain ⟨t, rfl⟩ := Element.tier_eq_two h2
        exact hne t rfl
      rw [Element.tier_of_declaresTypedef hxn]
      omega
    rw [heq] at hsorted hx
    exact ⟨x, mem_prefix_of_tier_lt hsorted hx htier, hxn⟩
  case enums =>
    intro pre e post heq htier _ _ ⟨x, hx, hxt⟩
    rw [heq] at hsorted hx
    exact ⟨x, mem_prefix_of_tier_lt hsorted hx (by rw [Element.tier_of_definesEnum hxt]; omega), hxt⟩
  case order =>
    rintro k hk
    have hk' : k ≠ 0 ∧ k ≠ 4 := by omega
    have hsub := (dedup_sublist hdedup).filter (·.tier == k)
    rwa [filter_hoist, filter_tier_addPrototypes hk'] at hsub

/-- The file `main.c`: an enum, then a typedef of it. -/
def enumTypedefSource : String := "enum e { A };\ntypedef enum e e_t;\n"

/-- Resolving `main.c`, which imports nothing, builds it alone. -/
def enumTypedefBuild : Except Error (Module × Resolver) :=
  (Resolver.build 1 "/work/main.c" "/work" [("/work/main.c", enumTypedefSource)]).run
    (Resolver.start ⟨none, "linux"⟩ ⟨["work"], [(["main.c"], enumTypedefSource)], []⟩ ["work"])

theorem enumTypedefBuild_lower : ∃ m r l, enumTypedefBuild = .ok (m, r) ∧ m.lower = .ok l ∧
    ∃ e post, l.module.elements = e :: post ∧ e.enumTagsNamed = ["e"] ∧
      ∃ x ∈ post, x.definesEnum "e" = true := by
  have hrun : (enumTypedefBuild.toOption.bind fun built => built.1.lower.toOption.map fun l =>
      (l.module.elements.head?.map Element.enumTagsNamed,
        (l.module.elements.drop 1).any (·.definesEnum "e"))) = some (some ["e"], true) := by
    decide +kernel
  cases hb : enumTypedefBuild with
  | error e => simp [hb, Except.toOption] at hrun
  | ok mr =>
    obtain ⟨m, r⟩ := mr
    cases hl : m.lower with
    | error e => simp [hb, hl, Except.toOption] at hrun
    | ok l =>
      simp only [hb, hl, Except.toOption, Option.bind_some, Option.map_some, Option.some.injEq,
        Prod.mk.injEq] at hrun
      obtain ⟨hhead, hany⟩ := hrun
      cases hels : l.module.elements with
      | nil => simp [hels] at hhead
      | cons e post =>
        simp only [hels, List.head?_cons, Option.map_some, Option.some.injEq, List.drop_succ_cons,
          List.drop_zero] at hhead hany
        exact ⟨m, r, l, rfl, hl, e, post, hels, hhead, List.any_eq_true.mp hany⟩

/-- Lowering the module built from `main.c` hoists the typedef of `enum e` above the enum's
definition. -/
theorem enumTypedef_not_declaresBeforeUse :
    ∃ m r l, enumTypedefBuild = .ok (m, r) ∧ m.lower = .ok l ∧ ¬ l.module.DeclaresBeforeUse := by
  obtain ⟨m, r, l, hb, hl, e, post, hels, he, x, hx, hxe⟩ := enumTypedefBuild_lower
  refine ⟨m, r, l, hb, hl, fun hdeclares => ?_⟩
  -- nothing stands before the typedef, though the module defines the enum it names
  have hbefore := (hdeclares [] e post (by simp [hels])).2 "e" (by simp [he])
    ⟨x, by simp [hels, hx], hxe⟩
  simp at hbefore

theorem enumTypedef_lower_declaresBeforeUse :
    ∃ m r l, enumTypedefBuild = .ok (m, r) ∧ m.lower = .ok l ∧
      (∀ pre e post, l.module.elements = pre ++ e :: post → (∀ t, e ≠ .typedef t) →
        ∀ n ∈ e.typeNamesUsed, (∃ x ∈ l.module.elements, x.declaresTypedef n = true) →
          ∃ x ∈ pre, x.declaresTypedef n = true) ∧
      (∀ pre e post, l.module.elements = pre ++ e :: post → 3 < e.tier →
        ∀ tag ∈ e.enumTagsNamed, (∃ x ∈ l.module.elements, x.definesEnum tag = true) →
          ∃ x ∈ pre, x.definesEnum tag = true) ∧
      ∃ flat, flatten m.elements = .ok flat ∧ ∀ k, k = 2 ∨ k = 3 →
        (l.module.elements.filter (·.tier == k)).Sublist
          ((lowerElements flat).filter (·.tier == k)) := by
  obtain ⟨m, r, l, hb, hl, -⟩ := enumTypedefBuild_lower
  exact ⟨m, r, l, hb, hl, Module.lower_declaresBeforeUse hl⟩

end ModularC
