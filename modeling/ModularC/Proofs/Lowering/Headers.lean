import Mathlib.Data.List.Sort
import Mathlib.Data.String.Basic
import ModularC.Proofs.Lowering.NormalForm

/-!
The names a module refers to, as positions in its syntax, and the headers inferred from them
(`inferHeaders_eq_iff`).
-/

namespace ModularC

/-- Whether an expression can head the right operand of `.` or `->`: a name, or a call, indexing or
postfix operator hanging off one. -/
def Expr.headsMember : Expr → Bool
  | .ident _ | .call .. | .index .. | .post .. => true
  | _ => false

mutual

/-- The name `x` stands at a reference position of an expression. -/
inductive Expr.Refers : Expr → String → Prop
  | ident (x : String) : Expr.Refers (.ident x) x
  | binaryLeft {op l r x} : l.Refers x → (Expr.binary op l r).Refers x
  | binaryRight {op l r x} : op ≠ .member → op ≠ .ptrMember → r.Refers x →
      (Expr.binary op l r).Refers x
  | member {l r x} : r.MemberRefers x → (Expr.binary .member l r).Refers x
  | ptrMember {l r x} : r.MemberRefers x → (Expr.binary .ptrMember l r).Refers x
  | cond {c y n x} : c.Refers x → (Expr.conditional c y n).Refers x
  | yes {c y n x} : y.Refers x → (Expr.conditional c y n).Refers x
  | no {c y n x} : n.Refers x → (Expr.conditional c y n).Refers x
  | unary {op a x} : a.Refers x → (Expr.unary op a).Refers x
  | post {op a x} : a.Refers x → (Expr.post op a).Refers x
  | castType {t a x} : t.Refers x → (Expr.cast t a).Refers x
  | castArg {t a x} : a.Refers x → (Expr.cast t a).Refers x
  | sizeofType {t x} : t.Refers x → (Expr.sizeofType t).Refers x
  | sizeofExpr {a x} : a.Refers x → (Expr.sizeofExpr a).Refers x
  | callee {f args x} : f.Refers x → (Expr.call f args).Refers x
  | arg {f args a x} : a ∈ args → a.Refers x → (Expr.call f args).Refers x
  | base {b i x} : b.Refers x → (Expr.index b i).Refers x
  | index {b i x} : i.Refers x → (Expr.index b i).Refers x
  | entryIndex {es en i x} : en ∈ es → en.index = some i → i.Refers x →
      (Expr.arrayInit es).Refers x
  | entryValue {es en x} : en ∈ es → en.value.Refers x → (Expr.arrayInit es).Refers x
  | memberValue {ms m x} : m ∈ ms → m.value.Refers x → (Expr.structInit ms).Refers x

/-- The name `x` stands at a reference position of the right operand of `.` or `->`: the member
name heading it is none, the arguments and indices hanging off it are. -/
inductive Expr.MemberRefers : Expr → String → Prop
  | callee {f args x} : f.MemberRefers x → (Expr.call f args).MemberRefers x
  | arg {f args a x} : a ∈ args → a.Refers x → (Expr.call f args).MemberRefers x
  | base {b i x} : b.MemberRefers x → (Expr.index b i).MemberRefers x
  | index {b i x} : i.Refers x → (Expr.index b i).MemberRefers x
  | post {op a x} : a.MemberRefers x → (Expr.post op a).MemberRefers x
  | other {e : Expr} {x : String} : e.headsMember = false → e.Refers x → e.MemberRefers x

inductive CType.Refers : CType → String → Prop
  | base {t : CType} {x : String} : t.base.Refers x → t.Refers x
  | form {t : CType} {x : String} : t.form.Refers x → t.Refers x

inductive BaseType.Refers : BaseType → String → Prop
  | part {b : BaseType} {p : TypePart} {x : String} : p ∈ b.parts → p.Refers x → b.Refers x

/-- A type name, or a name in the body of a record written in place. -/
inductive TypePart.Refers : TypePart → String → Prop
  | name (x : String) : (TypePart.name x).Refers x
  | body {r body x} : r.body = some body → body.Refers x → (TypePart.record r).Refers x

/-- A name in a field's declaration or an enumerator's value, never the field or enumerator
itself. -/
inductive RecordBody.Refers : RecordBody → String → Prop
  | field {ds d x} : d ∈ ds → d.Refers x → (RecordBody.fields ds).Refers x
  | value {es en v x} : en ∈ es → en.value = some v → v.Refers x →
      (RecordBody.enumerators es).Refers x

inductive Declaration.Refers : Declaration → String → Prop
  | base {d : Declaration} {x : String} : d.base.Refers x → d.Refers x
  | form {d : Declaration} {dl : Declarator} {x : String} : dl ∈ d.declarators → dl.form.Refers x →
      d.Refers x
  | init {d : Declaration} {dl : Declarator} {e : Expr} {x : String} : dl ∈ d.declarators →
      dl.init = some e → e.Refers x → d.Refers x

/-- A name in a declarator's nested declarator, array sizes and parameters, never the name it
declares. -/
inductive Form.Refers : Form → String → Prop
  | nested {f g : Form} {x : String} : f.core = .nested g → g.Refers x → f.Refers x
  | size {f : Form} {e : Expr} {x : String} : .array (some e) ∈ f.modifiers → e.Refers x →
      f.Refers x
  | paramBase {f : Form} {ps : Params} {p : Param} {x : String} : .params ps ∈ f.modifiers →
      p ∈ ps.params → p.base.Refers x → f.Refers x
  | paramForm {f : Form} {ps : Params} {p : Param} {x : String} : .params ps ∈ f.modifiers →
      p ∈ ps.params → p.form.Refers x → f.Refers x

end

/-- The name `x` stands at a reference position of a statement. -/
inductive Stmt.Refers : Stmt → String → Prop
  | block {ss s x} : s ∈ ss → s.Refers x → (Stmt.block ss).Refers x
  | ifCond {c t e x} : c.Refers x → (Stmt.if_ c t e).Refers x
  | ifThen {c t e x} : t.Refers x → (Stmt.if_ c t e).Refers x
  | ifElse {c t e x} : e.Refers x → (Stmt.if_ c t (some e)).Refers x
  | whileCond {c b x} : c.Refers x → (Stmt.while_ c b).Refers x
  | whileBody {c b x} : b.Refers x → (Stmt.while_ c b).Refers x
  | doBody {b c x} : b.Refers x → (Stmt.doWhile b c).Refers x
  | doCond {b c x} : c.Refers x → (Stmt.doWhile b c).Refers x
  | forDeclaration {d c st b x} : d.Refers x → (Stmt.for_ (some (.declaration d)) c st b).Refers x
  | forInit {e c st b x} : e.Refers x → (Stmt.for_ (some (.expr e)) c st b).Refers x
  | forCond {i c st b x} : c.Refers x → (Stmt.for_ i (some c) st b).Refers x
  | forStep {i c st b x} : st.Refers x → (Stmt.for_ i c (some st) b).Refers x
  | forBody {i c st b x} : b.Refers x → (Stmt.for_ i c st b).Refers x
  | switchValue {v cs x} : v.Refers x → (Stmt.switch v cs).Refers x
  | caseLabel {v cs c l x} : c ∈ cs → c.label = some l → l.Refers x → (Stmt.switch v cs).Refers x
  | caseBody {v cs c s x} : c ∈ cs → s ∈ c.body → s.Refers x → (Stmt.switch v cs).Refers x
  | return_ {e x} : e.Refers x → (Stmt.return_ (some e)).Refers x
  | defer {e x} : e.Refers x → (Stmt.defer e).Refers x
  | expr {e x} : e.Refers x → (Stmt.expr e).Refers x
  | declaration {d x} : d.Refers x → (Stmt.declaration d).Refers x

/-- The name `x` stands at a reference position of an element. Imports, preprocessor lines,
`#include`, `#type` and `#link` lines and forward declarations of records refer to nothing. -/
inductive Element.Refers : Element → String → Prop
  | typedefBase {t x} : t.base.Refers x → (Element.typedef t).Refers x
  | typedefForm {t x} : t.form.Refers x → (Element.typedef t).Refers x
  | field {exported kind tag fs d x} : d ∈ fs → d.Refers x →
      (Element.recordDef exported kind tag fs).Refers x
  | value {exported tag es en v x} : en ∈ es → en.value = some v → v.Refers x →
      (Element.enumDef exported tag es).Refers x
  | functionBase {f x} : f.base.Refers x → (Element.function f).Refers x
  | functionForm {f x} : f.form.Refers x → (Element.function f).Refers x
  | functionBody {f ss s x} : f.body = some ss → s ∈ ss → s.Refers x → (Element.function f).Refers x
  | global {d x} : d.Refers x → (Element.global d).Refers x

/-! ### Each constructor's reference positions -/

section Inversion

variable {x : String}

theorem Expr.refers_binary_member {l r : Expr} :
    (Expr.binary .member l r).Refers x ↔ l.Refers x ∨ r.MemberRefers x := by
  constructor
  · intro h
    cases h with
    | binaryLeft h => exact .inl h
    | binaryRight hm _ _ => exact absurd rfl hm
    | member h => exact .inr h
  · rintro (h | h)
    · exact .binaryLeft h
    · exact .member h

theorem Expr.refers_binary_ptrMember {l r : Expr} :
    (Expr.binary .ptrMember l r).Refers x ↔ l.Refers x ∨ r.MemberRefers x := by
  constructor
  · intro h
    cases h with
    | binaryLeft h => exact .inl h
    | binaryRight _ hp _ => exact absurd rfl hp
    | ptrMember h => exact .inr h
  · rintro (h | h)
    · exact .binaryLeft h
    · exact .ptrMember h

theorem Expr.refers_binary_of_ne {op : BinaryOp} {l r : Expr} (hm : op ≠ .member) (hp : op ≠ .ptrMember) :
    (Expr.binary op l r).Refers x ↔ l.Refers x ∨ r.Refers x := by
  constructor
  · intro h
    cases h with
    | binaryLeft h => exact .inl h
    | binaryRight _ _ h => exact .inr h
    | member => exact absurd rfl hm
    | ptrMember => exact absurd rfl hp
  · rintro (h | h)
    · exact .binaryLeft h
    · exact .binaryRight hm hp h

@[simp] theorem Expr.refers_conditional {c y n : Expr} :
    (Expr.conditional c y n).Refers x ↔ c.Refers x ∨ y.Refers x ∨ n.Refers x := by
  constructor
  · intro h
    cases h with
    | cond h => exact .inl h
    | yes h => exact .inr (.inl h)
    | no h => exact .inr (.inr h)
  · rintro (h | h | h)
    · exact .cond h
    · exact .yes h
    · exact .no h

@[simp] theorem Expr.refers_unary {op : UnaryOp} {a : Expr} : (Expr.unary op a).Refers x ↔ a.Refers x :=
  ⟨fun h => by cases h; assumption, .unary⟩

@[simp] theorem Expr.refers_post {op : PostOp} {a : Expr} : (Expr.post op a).Refers x ↔ a.Refers x :=
  ⟨fun h => by cases h; assumption, .post⟩

@[simp] theorem Expr.refers_cast {t : CType} {a : Expr} :
    (Expr.cast t a).Refers x ↔ t.Refers x ∨ a.Refers x := by
  constructor
  · intro h
    cases h with
    | castType h => exact .inl h
    | castArg h => exact .inr h
  · rintro (h | h)
    · exact .castType h
    · exact .castArg h

@[simp] theorem Expr.refers_sizeofType {t : CType} : (Expr.sizeofType t).Refers x ↔ t.Refers x :=
  ⟨fun h => by cases h; assumption, .sizeofType⟩

@[simp] theorem Expr.refers_sizeofExpr {a : Expr} : (Expr.sizeofExpr a).Refers x ↔ a.Refers x :=
  ⟨fun h => by cases h; assumption, .sizeofExpr⟩

@[simp] theorem Expr.refers_ident {n : String} : (Expr.ident n).Refers x ↔ n = x := by
  constructor
  · intro h
    cases h
    rfl
  · rintro rfl
    exact .ident n

@[simp] theorem Expr.not_refers_literal {l : Literal} : ¬ (Expr.literal l).Refers x := by
  intro h
  cases h

@[simp] theorem Expr.refers_call {f : Expr} {args : List Expr} :
    (Expr.call f args).Refers x ↔ f.Refers x ∨ ∃ a ∈ args, a.Refers x := by
  constructor
  · intro h
    cases h with
    | callee h => exact .inl h
    | arg ha h => exact .inr ⟨_, ha, h⟩
  · rintro (h | ⟨a, ha, h⟩)
    · exact .callee h
    · exact .arg ha h

@[simp] theorem Expr.refers_index {b i : Expr} : (Expr.index b i).Refers x ↔ b.Refers x ∨ i.Refers x := by
  constructor
  · intro h
    cases h with
    | base h => exact .inl h
    | index h => exact .inr h
  · rintro (h | h)
    · exact .base h
    · exact .index h

@[simp] theorem Expr.refers_arrayInit {es : List ArrayEntry} :
    (Expr.arrayInit es).Refers x ↔
      ∃ en ∈ es, (∃ i, en.index = some i ∧ i.Refers x) ∨ en.value.Refers x := by
  constructor
  · intro h
    cases h with
    | entryIndex hen hi h => exact ⟨_, hen, .inl ⟨_, hi, h⟩⟩
    | entryValue hen h => exact ⟨_, hen, .inr h⟩
  · rintro ⟨en, hen, ⟨i, hi, h⟩ | h⟩
    · exact .entryIndex hen hi h
    · exact .entryValue hen h

@[simp] theorem Expr.refers_structInit {ms : List MemberInit} :
    (Expr.structInit ms).Refers x ↔ ∃ m ∈ ms, m.value.Refers x := by
  constructor
  · intro h
    cases h with
    | memberValue hm h => exact ⟨_, hm, h⟩
  · rintro ⟨m, hm, h⟩
    exact .memberValue hm h

theorem Expr.memberRefers_iff_of_headsMember {e : Expr} (he : e.headsMember = false) :
    e.MemberRefers x ↔ e.Refers x := by
  constructor
  · intro h
    cases h with
    | other _ h => exact h
    | _ => simp [Expr.headsMember] at he
  · exact .other he

@[simp] theorem Expr.not_memberRefers_ident {n : String} : ¬ (Expr.ident n).MemberRefers x := by
  intro h
  cases h with
  | other he _ => simp [Expr.headsMember] at he

@[simp] theorem Expr.memberRefers_call {f : Expr} {args : List Expr} :
    (Expr.call f args).MemberRefers x ↔ f.MemberRefers x ∨ ∃ a ∈ args, a.Refers x := by
  constructor
  · intro h
    cases h with
    | callee h => exact .inl h
    | arg ha h => exact .inr ⟨_, ha, h⟩
    | other he _ => simp [Expr.headsMember] at he
  · rintro (h | ⟨a, ha, h⟩)
    · exact .callee h
    · exact .arg ha h

@[simp] theorem Expr.memberRefers_index {b i : Expr} :
    (Expr.index b i).MemberRefers x ↔ b.MemberRefers x ∨ i.Refers x := by
  constructor
  · intro h
    cases h with
    | base h => exact .inl h
    | index h => exact .inr h
    | other he _ => simp [Expr.headsMember] at he
  · rintro (h | h)
    · exact .base h
    · exact .index h

@[simp] theorem Expr.memberRefers_post {op : PostOp} {a : Expr} :
    (Expr.post op a).MemberRefers x ↔ a.MemberRefers x := by
  constructor
  · intro h
    cases h with
    | post h => exact h
    | other he _ => simp [Expr.headsMember] at he
  · exact .post


theorem CType.refers_iff {t : CType} : t.Refers x ↔ t.base.Refers x ∨ t.form.Refers x := by
  constructor
  · intro h
    cases h with
    | base h => exact .inl h
    | form h => exact .inr h
  · rintro (h | h)
    · exact .base h
    · exact .form h

theorem BaseType.refers_iff {b : BaseType} : b.Refers x ↔ ∃ p ∈ b.parts, p.Refers x := by
  constructor
  · intro h
    cases h with
    | part hp h => exact ⟨_, hp, h⟩
  · rintro ⟨p, hp, h⟩
    exact .part hp h

@[simp] theorem TypePart.refers_name {n : String} : (TypePart.name n).Refers x ↔ n = x := by
  constructor
  · intro h
    cases h
    rfl
  · rintro rfl
    exact .name n

@[simp] theorem TypePart.not_refers_keyword {k : Keyword} : ¬ (TypePart.keyword k).Refers x := by
  intro h
  cases h

@[simp] theorem TypePart.refers_record {r : Record} :
    (TypePart.record r).Refers x ↔ ∃ body, r.body = some body ∧ body.Refers x := by
  constructor
  · intro h
    cases h with
    | body hb h => exact ⟨_, hb, h⟩
  · rintro ⟨body, hb, h⟩
    exact .body hb h

@[simp] theorem RecordBody.refers_fields {ds : List Declaration} :
    (RecordBody.fields ds).Refers x ↔ ∃ d ∈ ds, d.Refers x := by
  constructor
  · intro h
    cases h with
    | field hd h => exact ⟨_, hd, h⟩
  · rintro ⟨d, hd, h⟩
    exact .field hd h

@[simp] theorem RecordBody.refers_enumerators {es : List Enumerator} :
    (RecordBody.enumerators es).Refers x ↔ ∃ en ∈ es, ∃ v, en.value = some v ∧ v.Refers x := by
  constructor
  · intro h
    cases h with
    | value hen hv h => exact ⟨_, hen, _, hv, h⟩
  · rintro ⟨en, hen, v, hv, h⟩
    exact .value hen hv h

theorem Declaration.refers_iff {d : Declaration} :
    d.Refers x ↔ d.base.Refers x ∨
      ∃ dl ∈ d.declarators, dl.form.Refers x ∨ ∃ e, dl.init = some e ∧ e.Refers x := by
  constructor
  · intro h
    cases h with
    | base h => exact .inl h
    | form hdl h => exact .inr ⟨_, hdl, .inl h⟩
    | init hdl he h => exact .inr ⟨_, hdl, .inr ⟨_, he, h⟩⟩
  · rintro (h | ⟨dl, hdl, h | ⟨e, he, h⟩⟩)
    · exact .base h
    · exact .form hdl h
    · exact .init hdl he h

theorem Form.refers_iff {f : Form} :
    f.Refers x ↔ (∃ g, f.core = .nested g ∧ g.Refers x) ∨
      (∃ e, .array (some e) ∈ f.modifiers ∧ e.Refers x) ∨
      ∃ ps, .params ps ∈ f.modifiers ∧ ∃ p ∈ ps.params, p.base.Refers x ∨ p.form.Refers x := by
  constructor
  · intro h
    cases h with
    | nested hg h => exact .inl ⟨_, hg, h⟩
    | size he h => exact .inr (.inl ⟨_, he, h⟩)
    | paramBase hps hp h => exact .inr (.inr ⟨_, hps, _, hp, .inl h⟩)
    | paramForm hps hp h => exact .inr (.inr ⟨_, hps, _, hp, .inr h⟩)
  · rintro (⟨g, hg, h⟩ | ⟨e, he, h⟩ | ⟨ps, hps, p, hp, h | h⟩)
    · exact .nested hg h
    · exact .size he h
    · exact .paramBase hps hp h
    · exact .paramForm hps hp h

end Inversion

/-! ### The collector meets exactly the reference positions

One lemma per function of the collector, by the same recursion over the syntax tree: in each case
the names the collector lists are those the constructor's positions give. -/

section Collector

variable {x : String}

theorem Expr.references_true_of_headsMember {e : Expr} (he : e.headsMember = false) :
    e.references true = e.references false := by
  cases e <;> simp_all [Expr.headsMember, Expr.references]

mutual

theorem Expr.mem_references : ∀ e : Expr,
    (x ∈ e.references false ↔ e.Refers x) ∧ (x ∈ e.references true ↔ e.MemberRefers x)
  | .binary op l r => by
    have hl := (Expr.mem_references l).1
    have hr := Expr.mem_references r
    have hfalse : x ∈ (Expr.binary op l r).references false ↔ (Expr.binary op l r).Refers x := by
      by_cases hm : op = .member
      · subst hm
        simp [Expr.references, hl, hr.2, Expr.refers_binary_member]
      by_cases hp : op = .ptrMember
      · subst hp
        simp [Expr.references, hl, hr.2, Expr.refers_binary_ptrMember]
      have hflag : (op == .member || op == .ptrMember) = false := by
        simp only [Bool.or_eq_false_iff, beq_eq_false_iff_ne]
        exact ⟨hm, hp⟩
      simp [Expr.references, hflag, hl, hr.1, Expr.refers_binary_of_ne hm hp]
    exact ⟨hfalse, by
      rw [Expr.references_true_of_headsMember rfl, hfalse, Expr.memberRefers_iff_of_headsMember rfl]⟩
  | .conditional c y n => by
    have hfalse : x ∈ (Expr.conditional c y n).references false ↔
        (Expr.conditional c y n).Refers x := by
      simp [Expr.references, (Expr.mem_references c).1, (Expr.mem_references y).1,
        (Expr.mem_references n).1]
    exact ⟨hfalse, by
      rw [Expr.references_true_of_headsMember rfl, hfalse, Expr.memberRefers_iff_of_headsMember rfl]⟩
  | .unary op a => by
    have hfalse : x ∈ (Expr.unary op a).references false ↔ (Expr.unary op a).Refers x := by
      simp [Expr.references, (Expr.mem_references a).1]
    exact ⟨hfalse, by
      rw [Expr.references_true_of_headsMember rfl, hfalse, Expr.memberRefers_iff_of_headsMember rfl]⟩
  | .post op a => by
    have ha := Expr.mem_references a
    exact ⟨by simp [Expr.references, ha.1], by simp [Expr.references, ha.2]⟩
  | .cast t a => by
    have hfalse : x ∈ (Expr.cast t a).references false ↔ (Expr.cast t a).Refers x := by
      simp [Expr.references, CType.mem_references t, (Expr.mem_references a).1]
    exact ⟨hfalse, by
      rw [Expr.references_true_of_headsMember rfl, hfalse, Expr.memberRefers_iff_of_headsMember rfl]⟩
  | .sizeofType t => by
    have hfalse : x ∈ (Expr.sizeofType t).references false ↔ (Expr.sizeofType t).Refers x := by
      simp [Expr.references, CType.mem_references t]
    exact ⟨hfalse, by
      rw [Expr.references_true_of_headsMember rfl, hfalse, Expr.memberRefers_iff_of_headsMember rfl]⟩
  | .sizeofExpr a => by
    have hfalse : x ∈ (Expr.sizeofExpr a).references false ↔ (Expr.sizeofExpr a).Refers x := by
      simp [Expr.references, (Expr.mem_references a).1]
    exact ⟨hfalse, by
      rw [Expr.references_true_of_headsMember rfl, hfalse, Expr.memberRefers_iff_of_headsMember rfl]⟩
  | .ident n => by simp [Expr.references, eq_comm]
  | .literal l => by
    rw [Expr.memberRefers_iff_of_headsMember rfl]
    simp [Expr.references]
  | .call f args => by
    have hf := Expr.mem_references f
    have hargs := Expr.mem_referencesAll args
    exact ⟨by simp [Expr.references, hf.1, hargs], by simp [Expr.references, hf.2, hargs]⟩
  | .index b i => by
    have hb := Expr.mem_references b
    have hi := (Expr.mem_references i).1
    exact ⟨by simp [Expr.references, hb.1, hi], by simp [Expr.references, hb.2, hi]⟩
  | .arrayInit es => by
    have hfalse : x ∈ (Expr.arrayInit es).references false ↔ (Expr.arrayInit es).Refers x := by
      simp [Expr.references, ArrayEntry.mem_referencesAll es]
    exact ⟨hfalse, by
      rw [Expr.references_true_of_headsMember rfl, hfalse, Expr.memberRefers_iff_of_headsMember rfl]⟩
  | .structInit ms => by
    have hfalse : x ∈ (Expr.structInit ms).references false ↔ (Expr.structInit ms).Refers x := by
      simp [Expr.references, MemberInit.mem_referencesAll ms]
    exact ⟨hfalse, by
      rw [Expr.references_true_of_headsMember rfl, hfalse, Expr.memberRefers_iff_of_headsMember rfl]⟩

theorem Expr.mem_referencesAll : ∀ es : List Expr,
    x ∈ Expr.referencesAll es ↔ ∃ a ∈ es, a.Refers x
  | [] => by simp [Expr.referencesAll]
  | a :: es => by
    simp [Expr.referencesAll, (Expr.mem_references a).1, Expr.mem_referencesAll es]

theorem ArrayEntry.mem_referencesAll : ∀ es : List ArrayEntry,
    x ∈ ArrayEntry.referencesAll es ↔
      ∃ en ∈ es, (∃ i, en.index = some i ∧ i.Refers x) ∨ en.value.Refers x
  | [] => by simp [ArrayEntry.referencesAll]
  | ⟨some i, v⟩ :: es => by
    simp [ArrayEntry.referencesAll, (Expr.mem_references i).1, (Expr.mem_references v).1,
      ArrayEntry.mem_referencesAll es, or_assoc]
  | ⟨none, v⟩ :: es => by
    simp [ArrayEntry.referencesAll, (Expr.mem_references v).1, ArrayEntry.mem_referencesAll es]

theorem MemberInit.mem_referencesAll : ∀ ms : List MemberInit,
    x ∈ MemberInit.referencesAll ms ↔ ∃ m ∈ ms, m.value.Refers x
  | [] => by simp [MemberInit.referencesAll]
  | ⟨_, v⟩ :: ms => by
    simp [MemberInit.referencesAll, (Expr.mem_references v).1, MemberInit.mem_referencesAll ms]

theorem CType.mem_references : ∀ t : CType, x ∈ t.references ↔ t.Refers x
  | ⟨base, form⟩ => by
    simp [CType.references, BaseType.mem_references base, Form.mem_references form, CType.refers_iff]

theorem BaseType.mem_references : ∀ b : BaseType, x ∈ b.references ↔ b.Refers x
  | ⟨parts⟩ => by simp [BaseType.references, TypePart.mem_referencesAll parts, BaseType.refers_iff]

theorem TypePart.mem_referencesAll : ∀ ps : List TypePart,
    x ∈ TypePart.referencesAll ps ↔ ∃ p ∈ ps, p.Refers x
  | [] => by simp [TypePart.referencesAll]
  | .keyword _ :: ps => by simp [TypePart.referencesAll, TypePart.mem_referencesAll ps]
  | .name n :: ps => by simp [TypePart.referencesAll, TypePart.mem_referencesAll ps, eq_comm]
  | .record ⟨_, _, some body⟩ :: ps => by
    simp [TypePart.referencesAll, RecordBody.mem_references body, TypePart.mem_referencesAll ps]
  | .record ⟨_, _, none⟩ :: ps => by
    simp [TypePart.referencesAll, TypePart.mem_referencesAll ps]

theorem RecordBody.mem_references : ∀ body : RecordBody, x ∈ body.references ↔ body.Refers x
  | .fields ds => by simp [RecordBody.references, Declaration.mem_referencesAll ds]
  | .enumerators es => by simp [RecordBody.references, Enumerator.mem_referencesAll es]

theorem Enumerator.mem_referencesAll : ∀ es : List Enumerator,
    x ∈ Enumerator.referencesAll es ↔ ∃ en ∈ es, ∃ v, en.value = some v ∧ v.Refers x
  | [] => by simp [Enumerator.referencesAll]
  | ⟨_, some v⟩ :: es => by
    simp [Enumerator.referencesAll, (Expr.mem_references v).1, Enumerator.mem_referencesAll es]
  | ⟨_, none⟩ :: es => by simp [Enumerator.referencesAll, Enumerator.mem_referencesAll es]

theorem Declaration.mem_references : ∀ d : Declaration, x ∈ d.references ↔ d.Refers x
  | ⟨base, ds⟩ => by
    simp [Declaration.references, BaseType.mem_references base, Declarator.mem_referencesAll ds,
      Declaration.refers_iff]

theorem Declaration.mem_referencesAll : ∀ ds : List Declaration,
    x ∈ Declaration.referencesAll ds ↔ ∃ d ∈ ds, d.Refers x
  | [] => by simp [Declaration.referencesAll]
  | d :: ds => by
    simp [Declaration.referencesAll, Declaration.mem_references d, Declaration.mem_referencesAll ds]

theorem Declarator.mem_referencesAll : ∀ ds : List Declarator,
    x ∈ Declarator.referencesAll ds ↔ ∃ dl ∈ ds, dl.form.Refers x ∨ ∃ e, dl.init = some e ∧ e.Refers x
  | [] => by simp [Declarator.referencesAll]
  | ⟨f, some e⟩ :: ds => by
    simp [Declarator.referencesAll, Form.mem_references f, (Expr.mem_references e).1,
      Declarator.mem_referencesAll ds, or_assoc]
  | ⟨f, none⟩ :: ds => by
    simp [Declarator.referencesAll, Form.mem_references f, Declarator.mem_referencesAll ds]

theorem Form.mem_references : ∀ f : Form, x ∈ f.references ↔ f.Refers x
  | ⟨_, core, mods⟩ => by
    rw [Form.refers_iff]
    simp [Form.references, FormCore.mem_references core, Modifier.mem_referencesAll mods]

theorem FormCore.mem_references : ∀ c : FormCore,
    x ∈ c.references ↔ ∃ g, c = .nested g ∧ g.Refers x
  | .nested g => by simp [FormCore.references, Form.mem_references g]
  | .name _ => by simp [FormCore.references]
  | .anonymous => by simp [FormCore.references]

theorem Modifier.mem_referencesAll : ∀ ms : List Modifier,
    x ∈ Modifier.referencesAll ms ↔ (∃ e, .array (some e) ∈ ms ∧ e.Refers x) ∨
      ∃ ps, .params ps ∈ ms ∧ ∃ p ∈ ps.params, p.base.Refers x ∨ p.form.Refers x
  | [] => by simp [Modifier.referencesAll]
  | .array (some e) :: ms => by
    simp [Modifier.referencesAll, (Expr.mem_references e).1, Modifier.mem_referencesAll ms, or_assoc]
  | .array none :: ms => by
    simp [Modifier.referencesAll, Modifier.mem_referencesAll ms]
  | .params ⟨ps, _⟩ :: ms => by
    simp [Modifier.referencesAll, Param.mem_referencesAll ps, Modifier.mem_referencesAll ms,
      or_left_comm]

theorem Param.mem_referencesAll : ∀ ps : List Param,
    x ∈ Param.referencesAll ps ↔ ∃ p ∈ ps, p.base.Refers x ∨ p.form.Refers x
  | [] => by simp [Param.referencesAll]
  | ⟨base, f⟩ :: ps => by
    simp [Param.referencesAll, BaseType.mem_references base, Form.mem_references f,
      Param.mem_referencesAll ps, or_assoc]

end

end Collector

/-! ### Statements and elements -/

section Statements

variable {x : String}

@[simp] theorem Stmt.refers_block {ss : List Stmt} :
    (Stmt.block ss).Refers x ↔ ∃ s ∈ ss, s.Refers x := by
  constructor
  · intro h
    cases h with
    | block hs h => exact ⟨_, hs, h⟩
  · rintro ⟨s, hs, h⟩
    exact .block hs h

@[simp] theorem Stmt.refers_if {c : Expr} {t : Stmt} {e : Option Stmt} :
    (Stmt.if_ c t e).Refers x ↔ c.Refers x ∨ t.Refers x ∨ ∃ s, e = some s ∧ s.Refers x := by
  constructor
  · intro h
    cases h with
    | ifCond h => exact .inl h
    | ifThen h => exact .inr (.inl h)
    | ifElse h => exact .inr (.inr ⟨_, rfl, h⟩)
  · rintro (h | h | ⟨s, rfl, h⟩)
    · exact .ifCond h
    · exact .ifThen h
    · exact .ifElse h

@[simp] theorem Stmt.refers_while {c : Expr} {b : Stmt} :
    (Stmt.while_ c b).Refers x ↔ c.Refers x ∨ b.Refers x := by
  constructor
  · intro h
    cases h with
    | whileCond h => exact .inl h
    | whileBody h => exact .inr h
  · rintro (h | h)
    · exact .whileCond h
    · exact .whileBody h

@[simp] theorem Stmt.refers_doWhile {b : Stmt} {c : Expr} :
    (Stmt.doWhile b c).Refers x ↔ c.Refers x ∨ b.Refers x := by
  constructor
  · intro h
    cases h with
    | doCond h => exact .inl h
    | doBody h => exact .inr h
  · rintro (h | h)
    · exact .doCond h
    · exact .doBody h

@[simp] theorem Stmt.refers_for {i : Option ForInit} {c st : Option Expr} {b : Stmt} :
    (Stmt.for_ i c st b).Refers x ↔
      ((∃ d, i = some (.declaration d) ∧ d.Refers x) ∨ (∃ e, i = some (.expr e) ∧ e.Refers x)) ∨
        (∃ e, c = some e ∧ e.Refers x) ∨ (∃ e, st = some e ∧ e.Refers x) ∨ b.Refers x := by
  constructor
  · intro h
    cases h with
    | forDeclaration h => exact .inl (.inl ⟨_, rfl, h⟩)
    | forInit h => exact .inl (.inr ⟨_, rfl, h⟩)
    | forCond h => exact .inr (.inl ⟨_, rfl, h⟩)
    | forStep h => exact .inr (.inr (.inl ⟨_, rfl, h⟩))
    | forBody h => exact .inr (.inr (.inr h))
  · rintro ((⟨d, rfl, h⟩ | ⟨e, rfl, h⟩) | ⟨e, rfl, h⟩ | ⟨e, rfl, h⟩ | h)
    · exact .forDeclaration h
    · exact .forInit h
    · exact .forCond h
    · exact .forStep h
    · exact .forBody h

@[simp] theorem Stmt.refers_switch {v : Expr} {cs : List Case} :
    (Stmt.switch v cs).Refers x ↔ v.Refers x ∨
      ∃ c ∈ cs, (∃ l, c.label = some l ∧ l.Refers x) ∨ ∃ s ∈ c.body, s.Refers x := by
  constructor
  · intro h
    cases h with
    | switchValue h => exact .inl h
    | caseLabel hc hl h => exact .inr ⟨_, hc, .inl ⟨_, hl, h⟩⟩
    | caseBody hc hs h => exact .inr ⟨_, hc, .inr ⟨_, hs, h⟩⟩
  · rintro (h | ⟨c, hc, ⟨l, hl, h⟩ | ⟨s, hs, h⟩⟩)
    · exact .switchValue h
    · exact .caseLabel hc hl h
    · exact .caseBody hc hs h

@[simp] theorem Stmt.refers_return {e : Option Expr} :
    (Stmt.return_ e).Refers x ↔ ∃ v, e = some v ∧ v.Refers x := by
  constructor
  · intro h
    cases h with
    | return_ h => exact ⟨_, rfl, h⟩
  · rintro ⟨v, rfl, h⟩
    exact .return_ h

@[simp] theorem Stmt.refers_defer {e : Expr} : (Stmt.defer e).Refers x ↔ e.Refers x :=
  ⟨fun h => by cases h; assumption, .defer⟩

@[simp] theorem Stmt.refers_expr {e : Expr} : (Stmt.expr e).Refers x ↔ e.Refers x :=
  ⟨fun h => by cases h; assumption, .expr⟩

@[simp] theorem Stmt.refers_declaration {d : Declaration} :
    (Stmt.declaration d).Refers x ↔ d.Refers x :=
  ⟨fun h => by cases h; assumption, .declaration⟩

@[simp] theorem Stmt.not_refers_break : ¬ Stmt.break_.Refers x := by
  intro h
  cases h

@[simp] theorem Stmt.not_refers_continue : ¬ Stmt.continue_.Refers x := by
  intro h
  cases h

@[simp] theorem Stmt.not_refers_empty : ¬ Stmt.empty.Refers x := by
  intro h
  cases h

mutual

theorem Stmt.mem_references : ∀ s : Stmt, x ∈ s.references ↔ s.Refers x
  | .block ss => by simp [Stmt.references, Stmt.mem_referencesAll ss]
  | .if_ c t none => by
    simp [Stmt.references, (Expr.mem_references c).1, Stmt.mem_references t]
  | .if_ c t (some e) => by
    simp [Stmt.references, (Expr.mem_references c).1, Stmt.mem_references t,
      Stmt.mem_references e]
  | .while_ c b => by simp [Stmt.references, (Expr.mem_references c).1, Stmt.mem_references b]
  | .doWhile b c => by simp [Stmt.references, (Expr.mem_references c).1, Stmt.mem_references b]
  | .for_ init cond step b => by
    have hb := Stmt.mem_references b
    rcases init with _ | ⟨d⟩ | ⟨e⟩ <;> rcases cond with _ | c <;> rcases step with _ | st <;>
      simp [Stmt.references, Declaration.mem_references, Expr.mem_references, hb]
  | .switch v cs => by
    simp [Stmt.references, (Expr.mem_references v).1, Case.mem_referencesAll cs]
  | .return_ none => by simp [Stmt.references]
  | .return_ (some e) => by simp [Stmt.references, (Expr.mem_references e).1]
  | .defer e => by simp [Stmt.references, (Expr.mem_references e).1]
  | .expr e => by simp [Stmt.references, (Expr.mem_references e).1]
  | .declaration d => by simp [Stmt.references, Declaration.mem_references d]
  | .break_ => by simp [Stmt.references]
  | .continue_ => by simp [Stmt.references]
  | .empty => by simp [Stmt.references]

theorem Stmt.mem_referencesAll : ∀ ss : List Stmt,
    x ∈ Stmt.referencesAll ss ↔ ∃ s ∈ ss, s.Refers x
  | [] => by simp [Stmt.referencesAll]
  | s :: ss => by simp [Stmt.referencesAll, Stmt.mem_references s, Stmt.mem_referencesAll ss]

theorem Case.mem_referencesAll : ∀ cs : List Case,
    x ∈ Case.referencesAll cs ↔
      ∃ c ∈ cs, (∃ l, c.label = some l ∧ l.Refers x) ∨ ∃ s ∈ c.body, s.Refers x
  | [] => by simp [Case.referencesAll]
  | ⟨some l, body⟩ :: cs => by
    simp [Case.referencesAll, (Expr.mem_references l).1, Stmt.mem_referencesAll body,
      Case.mem_referencesAll cs, or_assoc]
  | ⟨none, body⟩ :: cs => by
    simp [Case.referencesAll, Stmt.mem_referencesAll body, Case.mem_referencesAll cs]

end

/-- The collector lists exactly the names at the reference positions of an element. -/
theorem Element.mem_references {e : Element} : x ∈ e.references ↔ e.Refers x := by
  constructor
  · intro h
    cases e with
    | typedef t =>
      rcases List.mem_append.mp h with h | h
      · exact .typedefBase ((BaseType.mem_references _).mp h)
      · exact .typedefForm ((Form.mem_references _).mp h)
    | recordDef exported kind tag fs =>
      obtain ⟨d, hd, h⟩ := (Declaration.mem_referencesAll fs).mp h
      exact .field hd h
    | enumDef exported tag es =>
      obtain ⟨en, hen, v, hv, h⟩ := (Enumerator.mem_referencesAll es).mp h
      exact .value hen hv h
    | function f =>
      rcases List.mem_append.mp h with h | h
      · rcases List.mem_append.mp h with h | h
        · exact .functionBase ((BaseType.mem_references _).mp h)
        · exact .functionForm ((Form.mem_references _).mp h)
      · cases hbody : f.body with
        | none => simp [hbody] at h
        | some ss =>
          obtain ⟨s, hs, h⟩ := (Stmt.mem_referencesAll ss).mp (by simpa [hbody] using h)
          exact .functionBody hbody hs h
    | global d => exact .global ((Declaration.mem_references d).mp h)
    | _ => simp [Element.references] at h
  · intro h
    cases h with
    | typedefBase h => exact List.mem_append_left _ ((BaseType.mem_references _).mpr h)
    | typedefForm h => exact List.mem_append_right _ ((Form.mem_references _).mpr h)
    | field hd h => exact (Declaration.mem_referencesAll _).mpr ⟨_, hd, h⟩
    | value hen hv h => exact (Enumerator.mem_referencesAll _).mpr ⟨_, hen, _, hv, h⟩
    | functionBase h =>
      exact List.mem_append_left _ (List.mem_append_left _ ((BaseType.mem_references _).mpr h))
    | functionForm h =>
      exact List.mem_append_left _ (List.mem_append_right _ ((Form.mem_references _).mpr h))
    | functionBody hbody hs h =>
      refine List.mem_append_right _ ?_
      simpa [hbody] using (Stmt.mem_referencesAll _).mpr ⟨_, hs, h⟩
    | global h => exact (Declaration.mem_references _).mpr h

end Statements

/-! ### The inferred headers -/

/-- The headers inferred for a list of elements are, sorted and each once, the headers that declare
the names the elements refer to: a list is the inferred one exactly when it is sorted strictly and
holds those headers. -/
theorem inferHeaders_eq_iff {es : List Element} {hs : List String} :
    inferHeaders es = hs ↔ hs.Pairwise (· < ·) ∧
      ∀ h, h ∈ hs ↔ ∃ e ∈ es, ∃ x, e.Refers x ∧ Standard.headerOf? x = some h := by
  have hmem : ∀ h, h ∈ inferHeaders es ↔
      ∃ e ∈ es, ∃ x, e.Refers x ∧ Standard.headerOf? x = some h := by
    intro h
    simp only [inferHeaders, List.mem_mergeSort, List.mem_eraseDups, List.mem_filterMap,
      List.mem_flatMap, Element.mem_references]
    constructor
    · rintro ⟨x, ⟨e, he, hx⟩, hh⟩
      exact ⟨e, he, x, hx, hh⟩
    · rintro ⟨e, he, x, hx, hh⟩
      exact ⟨x, ⟨e, he, hx⟩, hh⟩
  constructor
  · rintro rfl
    exact ⟨inferHeaders_pairwise_lt es, hmem⟩
  · rintro ⟨hsorted, hhs⟩
    -- two strictly sorted lists with the same members are equal
    exact List.Pairwise.eq_of_mem_iff (inferHeaders_pairwise_lt es) hsorted fun h =>
      (hmem h).trans (hhs h).symm

end ModularC
