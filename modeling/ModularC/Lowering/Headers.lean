import ModularC.Standard.Names
import ModularC.Syntax.Basic

/-!
Standard headers inferred from the names a module refers to, sorted and each once.
-/

namespace ModularC

mutual

/-- The names an expression refers to, in order. In member position a bare identifier names a
member and refers to nothing. -/
def Expr.references (inMember : Bool) : Expr → List String
  | .binary op l r =>
    l.references false ++ r.references (op == .member || op == .ptrMember)
  | .conditional c y n => c.references false ++ y.references false ++ n.references false
  | .unary _ a => a.references false
  | .post _ a => a.references inMember
  | .sizeofExpr a => a.references false
  | .cast t a => t.references ++ a.references false
  | .sizeofType t => t.references
  | .ident n => if inMember then [] else [n]
  | .literal _ => []
  | .call f args => f.references inMember ++ Expr.referencesAll args
  | .index b i => b.references inMember ++ i.references false
  | .arrayInit es => ArrayEntry.referencesAll es
  | .structInit ms => MemberInit.referencesAll ms

def Expr.referencesAll : List Expr → List String
  | [] => []
  | e :: es => e.references false ++ Expr.referencesAll es

def ArrayEntry.referencesAll : List ArrayEntry → List String
  | [] => []
  | ⟨some i, v⟩ :: es => i.references false ++ v.references false ++ ArrayEntry.referencesAll es
  | ⟨none, v⟩ :: es => v.references false ++ ArrayEntry.referencesAll es

def MemberInit.referencesAll : List MemberInit → List String
  | [] => []
  | ⟨_, v⟩ :: ms => v.references false ++ MemberInit.referencesAll ms

def CType.references : CType → List String
  | ⟨base, form⟩ => base.references ++ form.references

def BaseType.references : BaseType → List String
  | ⟨parts⟩ => TypePart.referencesAll parts

def TypePart.referencesAll : List TypePart → List String
  | [] => []
  | .keyword _ :: ps => TypePart.referencesAll ps
  | .name n :: ps => n :: TypePart.referencesAll ps
  | .record ⟨_, _, some body⟩ :: ps => body.references ++ TypePart.referencesAll ps
  | .record ⟨_, _, none⟩ :: ps => TypePart.referencesAll ps

def RecordBody.references : RecordBody → List String
  | .fields ds => Declaration.referencesAll ds
  | .enumerators es => Enumerator.referencesAll es

def Enumerator.referencesAll : List Enumerator → List String
  | [] => []
  | ⟨_, some v⟩ :: es => v.references false ++ Enumerator.referencesAll es
  | ⟨_, none⟩ :: es => Enumerator.referencesAll es

def Declaration.references : Declaration → List String
  | ⟨base, ds⟩ => base.references ++ Declarator.referencesAll ds

def Declaration.referencesAll : List Declaration → List String
  | [] => []
  | d :: ds => d.references ++ Declaration.referencesAll ds

def Declarator.referencesAll : List Declarator → List String
  | [] => []
  | ⟨f, some e⟩ :: ds => f.references ++ e.references false ++ Declarator.referencesAll ds
  | ⟨f, none⟩ :: ds => f.references ++ Declarator.referencesAll ds

/-- The names a declarator refers to: in a nested declarator, array sizes and parameters; never
the declared name. -/
def Form.references : Form → List String
  | ⟨_, core, mods⟩ => core.references ++ Modifier.referencesAll mods

def FormCore.references : FormCore → List String
  | .nested f => f.references
  | _ => []

def Modifier.referencesAll : List Modifier → List String
  | [] => []
  | .array (some e) :: ms => e.references false ++ Modifier.referencesAll ms
  | .array none :: ms => Modifier.referencesAll ms
  | .params ⟨ps, _⟩ :: ms => Param.referencesAll ps ++ Modifier.referencesAll ms

def Param.referencesAll : List Param → List String
  | [] => []
  | ⟨base, f⟩ :: ps => base.references ++ f.references ++ Param.referencesAll ps

end

mutual

def Stmt.references : Stmt → List String
  | .block ss => Stmt.referencesAll ss
  | .if_ c thn els =>
    c.references false ++ thn.references ++ (match els with
      | some e => e.references
      | none => [])
  | .while_ c body => c.references false ++ body.references
  | .doWhile body c => c.references false ++ body.references
  | .for_ init cond step body =>
    (match init with
      | some (.declaration d) => d.references
      | some (.expr e) => e.references false
      | none => []) ++
    (match cond with
      | some e => e.references false
      | none => []) ++
    (match step with
      | some e => e.references false
      | none => []) ++ body.references
  | .switch v cases => v.references false ++ Case.referencesAll cases
  | .return_ (some e) => e.references false
  | .return_ none => []
  | .defer e | .expr e => e.references false
  | .declaration d => d.references
  | .break_ | .continue_ | .empty => []

def Stmt.referencesAll : List Stmt → List String
  | [] => []
  | s :: ss => s.references ++ Stmt.referencesAll ss

def Case.referencesAll : List Case → List String
  | [] => []
  | ⟨label, body⟩ :: cs =>
    (match label with
      | some l => l.references false
      | none => []) ++ Stmt.referencesAll body ++ Case.referencesAll cs

end

/-- The names an element refers to, in order. -/
def Element.references : Element → List String
  | .typedef t => t.base.references ++ t.form.references
  | .recordDef _ _ _ fs => Declaration.referencesAll fs
  | .enumDef _ _ es => Enumerator.referencesAll es
  | .function f =>
    f.base.references ++ f.form.references ++ (match f.body with
      | some body => Stmt.referencesAll body
      | none => [])
  | .global d => d.references
  | _ => []

/-- The standard headers that declare names the elements refer to, sorted and each once. -/
def inferHeaders (es : List Element) : List String :=
  ((es.flatMap Element.references).filterMap Standard.headerOf?).eraseDups.mergeSort
    fun a b => decide (a ≤ b)

end ModularC
