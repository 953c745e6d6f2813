import ModularC.Text.Blank
import ModularC.Syntax.Basic

/-!
C text of the syntax tree.
-/

namespace ModularC

namespace Print

/-- `depth` tabs. -/
def tabs (depth : Nat) : String := String.ofList (List.replicate depth '\t')

def parenIf (b : Bool) (s : String) : String := if b then "(" ++ s ++ ")" else s

/-- Groupings that binding strength already implies but that are written out anyway. -/
def needsClarity (parent child : BinaryOp) : Bool :=
  match parent with
  | .logicalOr => child == .logicalAnd
  | .shl | .shr => child == .add || child == .sub
  | p =>
    if p.isBitwise then child != p && child.strength < memberStrength
    else if p.isComparison then child.isComparison
    else false

/-- Whether an operand of `parent` on the left (or right) side needs parentheses. -/
def operandWraps (e : Expr) (parent : BinaryOp) (left : Bool) : Bool :=
  let s := e.strength
  let wrongSide := if parent.isRightAssoc then left else !left
  let clarity := match e with
    | .binary child _ _ => needsClarity parent child
    | _ => false
  s < parent.strength || (s == parent.strength && wrongSide && s < atomStrength) || clarity

/-- A prefix operator ending in `-`, `+` or `&` would run into an operand that starts with the
same character (`- -a`, `& &a`), so a space separates them. -/
def merges (op : UnaryOp) (operand : String) : Bool :=
  match op.spelling.toList.getLast? with
  | some c => (c == '-' || c == '+' || c == '&') && operand.toList.head? == some c
  | none => false

/-- `{}` for no items, `{ a, b }` otherwise. -/
def braces (items : List String) : String :=
  if items.isEmpty then "\x7b\x7d" else "\x7b " ++ ", ".intercalate items ++ " \x7d"

/-- The pointers of a declarator: each `*` followed by its qualifiers and a space after each. -/
def pointers (ps : List Pointer) : String :=
  String.join (ps.map fun p => "*" ++ String.join (p.qualifiers.map (·.spelling ++ " ")))

/-- `{`, then `inner`, then `}` at nesting `depth`. -/
def braced (depth : Nat) (inner : String) : String :=
  "\x7b\n" ++ inner ++ tabs depth ++ "\x7d"

/-- Enumerator lines in braces, separated by commas. -/
def enumBraces (depth : Nat) (lines : List String) : String :=
  "\x7b\n" ++ ",\n".intercalate lines ++ "\n" ++ tabs depth ++ "\x7d"

/-- `type form`, without the space when the form is empty. -/
def typed (base form : String) : String :=
  if form.isEmpty then base else base ++ " " ++ form

end Print

open Print

mutual

def Expr.render : Expr → String
  | .binary op l r =>
    let ls := parenIf (operandWraps l op true) l.render
    let rs := parenIf (operandWraps r op false) r.render
    if op == .member || op == .ptrMember then ls ++ op.spelling ++ rs
    else ls ++ " " ++ op.spelling ++ " " ++ rs
  | .conditional c y n =>
    parenIf (c.strength < ternaryStrength + 1) c.render ++ " ? " ++ y.render ++ " : " ++
      parenIf (n.strength < ternaryStrength) n.render
  | .unary op a =>
    let s := parenIf (a.strength < unaryStrength) a.render
    if merges op s then op.spelling ++ " " ++ s else op.spelling ++ s
  | .post op a => parenIf (a.strength < memberStrength) a.render ++ op.spelling
  | .cast t a => "(" ++ t.render ++ ")" ++ parenIf (a.strength < unaryStrength) a.render
  | .sizeofType t => "sizeof(" ++ t.render ++ ")"
  | .sizeofExpr a => "sizeof(" ++ a.render ++ ")"
  | .ident n => n
  | .literal (.number n) => n
  | .literal (.string s) => "\"" ++ s ++ "\""
  | .literal (.char c) => "'" ++ c ++ "'"
  | .call f args =>
    parenIf (f.strength < memberStrength) f.render ++ "(" ++ ", ".intercalate (Expr.renderAll args) ++ ")"
  | .index b i => parenIf (b.strength < memberStrength) b.render ++ "[" ++ i.render ++ "]"
  | .arrayInit es => braces (ArrayEntry.renderAll es)
  | .structInit ms => braces (MemberInit.renderAll ms)

def Expr.renderAll : List Expr → List String
  | [] => []
  | e :: es => e.render :: Expr.renderAll es

def ArrayEntry.renderAll : List ArrayEntry → List String
  | [] => []
  | ⟨some i, v⟩ :: es => ("[" ++ i.render ++ "] = " ++ v.render) :: ArrayEntry.renderAll es
  | ⟨none, v⟩ :: es => v.render :: ArrayEntry.renderAll es

def MemberInit.renderAll : List MemberInit → List String
  | [] => []
  | ⟨n, v⟩ :: ms => ("." ++ n ++ " = " ++ v.render) :: MemberInit.renderAll ms

def CType.render : CType → String
  | ⟨base, form⟩ => typed (base.render 0) form.render

/-- The base type; a record body in it is indented for nesting `depth`. -/
def BaseType.render (depth : Nat) : BaseType → String
  | ⟨parts⟩ => " ".intercalate (TypePart.renderAll depth parts)

def TypePart.renderAll (depth : Nat) : List TypePart → List String
  | [] => []
  | .keyword k :: ps => k.spelling :: TypePart.renderAll depth ps
  | .name n :: ps => n :: TypePart.renderAll depth ps
  | .record r :: ps => r.render depth :: TypePart.renderAll depth ps

def Record.render (depth : Nat) : Record → String
  | ⟨kind, name, body⟩ =>
    kind.spelling ++ (match name with
      | some n => " " ++ n
      | none => "") ++ (match body with
      | some b => " " ++ b.render depth
      | none => "")

/-- Fields one per line and enumerators separated by commas, one level deeper, in braces. -/
def RecordBody.render (depth : Nat) : RecordBody → String
  | .fields ds => braced depth (Declaration.renderLines (depth + 1) ds)
  | .enumerators es => enumBraces depth (Enumerator.renderAll (depth + 1) es)

def Declaration.renderLines (depth : Nat) : List Declaration → String
  | [] => ""
  | d :: ds => tabs depth ++ d.render depth ++ ";\n" ++ Declaration.renderLines depth ds

def Enumerator.renderAll (depth : Nat) : List Enumerator → List String
  | [] => []
  | ⟨n, some v⟩ :: es => (tabs depth ++ n ++ " = " ++ v.render) :: Enumerator.renderAll depth es
  | ⟨n, none⟩ :: es => (tabs depth ++ n) :: Enumerator.renderAll depth es

def Declaration.render (depth : Nat) : Declaration → String
  | ⟨base, ds⟩ =>
    let declarators := ", ".intercalate (Declarator.renderAll ds)
    typed (base.render depth) declarators

def Declarator.renderAll : List Declarator → List String
  | [] => []
  | ⟨f, some e⟩ :: ds => (f.render ++ " = " ++ e.render) :: Declarator.renderAll ds
  | ⟨f, none⟩ :: ds => f.render :: Declarator.renderAll ds

/-- The declarator; blanks that qualifiers leave at its end are dropped. -/
def Form.render : Form → String
  | ⟨ps, core, mods⟩ => Text.trimEnd (pointers ps ++ core.render ++ Modifier.renderAll mods)

def FormCore.render : FormCore → String
  | .name n => n
  | .nested f => "(" ++ f.render ++ ")"
  | .anonymous => ""

def Modifier.renderAll : List Modifier → String
  | [] => ""
  | .array none :: ms => "[]" ++ Modifier.renderAll ms
  | .array (some e) :: ms => "[" ++ e.render ++ "]" ++ Modifier.renderAll ms
  | .params ps :: ms => "(" ++ ps.render ++ ")" ++ Modifier.renderAll ms

def Params.render : Params → String
  | ⟨ps, variadic⟩ => ", ".intercalate (Param.renderAll ps ++ if variadic then ["..."] else [])

def Param.renderAll : List Param → List String
  | [] => []
  | ⟨base, form⟩ :: ps => typed (base.render 0) form.render :: Param.renderAll ps

end

/-- A record's fields, one per line one level deeper, in braces. -/
def Declaration.renderFields (depth : Nat) (ds : List Declaration) : String :=
  braced depth (Declaration.renderLines (depth + 1) ds)

/-- An enum's enumerators, one per line one level deeper, separated by commas, in braces. -/
def Enumerator.renderBlock (depth : Nat) (es : List Enumerator) : String :=
  enumBraces depth (Enumerator.renderAll (depth + 1) es)

/-- The condition of `if`, `while` and `do`; a bare assignment gets a second pair of
parentheses. -/
def Expr.renderCondition : Expr → String
  | e@(.binary .assign _ _) => "((" ++ e.render ++ "))"
  | e => "(" ++ e.render ++ ")"

mutual

/-- A statement as complete lines indented to `depth`. Bodies of control statements are braced
whether or not they are blocks. -/
def Stmt.render (depth : Nat) : Stmt → String
  | .block ss => tabs depth ++ braced depth (Stmt.renderLines (depth + 1) ss) ++ "\n"
  | .if_ c thn els =>
    let head := tabs depth ++ "if " ++ c.renderCondition ++ " " ++ braced depth (match thn with
      | .block ss => Stmt.renderLines (depth + 1) ss
      | s => s.render (depth + 1))
    match els with
    | some e@(.if_ ..) =>
      head ++ " else " ++ String.ofList ((e.render depth).toList.dropWhile (· == '\t'))
    | some (.block ss) => head ++ " else " ++ braced depth (Stmt.renderLines (depth + 1) ss) ++ "\n"
    | some e => head ++ " else " ++ braced depth (e.render (depth + 1)) ++ "\n"
    | none => head ++ "\n"
  | .while_ c body =>
    tabs depth ++ "while " ++ c.renderCondition ++ " " ++ braced depth (match body with
      | .block ss => Stmt.renderLines (depth + 1) ss
      | s => s.render (depth + 1)) ++ "\n"
  | .doWhile body c =>
    tabs depth ++ "do " ++ braced depth (match body with
      | .block ss => Stmt.renderLines (depth + 1) ss
      | s => s.render (depth + 1)) ++ " while " ++ c.renderCondition ++ ";\n"
  | .for_ init cond step body =>
    let i := match init with
      | some (.declaration d) => d.render depth
      | some (.expr e) => e.render
      | none => ""
    let c := match cond with
      | some e => " " ++ e.render
      | none => ""
    let s := match step with
      | some e => " " ++ e.render
      | none => ""
    tabs depth ++ "for (" ++ i ++ ";" ++ c ++ ";" ++ s ++ ") " ++ braced depth (match body with
      | .block ss => Stmt.renderLines (depth + 1) ss
      | b => b.render (depth + 1)) ++ "\n"
  | .switch v cases =>
    tabs depth ++ "switch (" ++ v.render ++ ") \x7b\n" ++ Case.renderAll (depth + 1) cases ++
      tabs depth ++ "\x7d\n"
  | .return_ none => tabs depth ++ "return;\n"
  | .return_ (some e) => tabs depth ++ "return " ++ e.render ++ ";\n"
  | .defer e => tabs depth ++ "defer " ++ e.render ++ ";\n"
  | .declaration d => tabs depth ++ d.render depth ++ ";\n"
  | .expr e => tabs depth ++ e.render ++ ";\n"
  | .break_ => tabs depth ++ "break;\n"
  | .continue_ => tabs depth ++ "continue;\n"
  | .empty => tabs depth ++ ";\n"

def Stmt.renderLines (depth : Nat) : List Stmt → String
  | [] => ""
  | s :: ss => s.render depth ++ Stmt.renderLines depth ss

def Case.renderAll (depth : Nat) : List Case → String
  | [] => ""
  | ⟨label, body⟩ :: cs =>
    (match label with
      | some l => tabs depth ++ "case " ++ l.render ++ ":\n"
      | none => tabs depth ++ "default:\n") ++ Stmt.renderLines (depth + 1) body ++
      Case.renderAll depth cs

end

/-- The C text of a function: its head, then `;` or its body. -/
def FunctionDef.render (f : FunctionDef) : String :=
  let head := typed (f.base.render 0) f.form.render
  match f.body with
  | none => head ++ ";"
  | some body => head ++ " " ++ braced 0 (Stmt.renderLines 1 body)

/-- The text of one element. Imports and the `#type` and `#link` directives become comments. -/
def Element.render : Element → String
  | .import_ i => "/* import \"" ++ i.path ++ "\" */"
  | .header h => "#include <" ++ h ++ ">"
  | .directive line => line
  | .typeDirective n => "/* #type " ++ n ++ " */"
  | .link n => "/* #link " ++ n ++ " */"
  | .typedef t => "typedef " ++ typed (t.base.render 0) t.form.render ++ ";"
  | .recordForward k n => k.spelling ++ " " ++ n ++ ";"
  | .recordDef _ k n fs => k.spelling ++ " " ++ n ++ " " ++ Declaration.renderFields 0 fs ++ ";"
  | .enumDef _ n es => "enum " ++ n ++ " " ++ Enumerator.renderBlock 0 es ++ ";"
  | .function f => f.render
  | .global d => d.render 0 ++ ";"

/-- Whether the element is a function with a body. -/
def Element.isDefinition : Element → Bool
  | .function f => f.body.isSome
  | _ => false

/-- The text of a list of elements: each on its own lines, and a blank line before every function
definition but the first element. -/
def Element.renderAll (es : List Element) : String :=
  String.join <| es.zipIdx.map fun (e, i) =>
    (if i > 0 && e.isDefinition then "\n" else "") ++ e.render ++ "\n"

def Module.render (m : Module) : String := Element.renderAll m.elements

end ModularC
