import ModularC.Token.Basic

/-!
The syntax tree of the module dialect of C.
-/

namespace ModularC

/-- `struct`, `union` or `enum`. -/
inductive RecordKind where
  | struct | union | enum
deriving DecidableEq, Repr, Inhabited

def RecordKind.spelling : RecordKind → String
  | .struct => "struct"
  | .union => "union"
  | .enum => "enum"

/-- Binary operators, member access included. -/
inductive BinaryOp where
  | assign | addAssign | subAssign | mulAssign | divAssign | remAssign | shlAssign | shrAssign
  | andAssign | xorAssign | orAssign
  | logicalOr | logicalAnd | bitOr | bitXor | bitAnd | eq | ne | lt | le | gt | ge | shl | shr
  | add | sub | mul | div | rem | member | ptrMember
deriving DecidableEq, Repr, Inhabited

/-- The binding strength of assignments, the weakest. -/
def assignStrength : Nat := 1
/-- The binding strength of `?:`. -/
def ternaryStrength : Nat := 2
/-- The binding strength of prefix operators, casts and `sizeof`. -/
def unaryStrength : Nat := 13
/-- The binding strength of `.` and `->`. -/
def memberStrength : Nat := 14
/-- The binding strength of atoms and postfix forms, the strongest. -/
def atomStrength : Nat := 15

namespace BinaryOp

/-- The operator a symbol stands for between two operands. -/
def ofSymbol? : Symbol → Option BinaryOp
  | .assign => some .assign | .plusAssign => some .addAssign | .minusAssign => some .subAssign
  | .starAssign => some .mulAssign | .slashAssign => some .divAssign
  | .percentAssign => some .remAssign | .shlAssign => some .shlAssign
  | .shrAssign => some .shrAssign | .ampAssign => some .andAssign
  | .caretAssign => some .xorAssign | .pipeAssign => some .orAssign
  | .orOr => some .logicalOr | .andAnd => some .logicalAnd | .pipe => some .bitOr
  | .caret => some .bitXor | .amp => some .bitAnd | .eqEq => some .eq | .notEq => some .ne
  | .lt => some .lt | .le => some .le | .gt => some .gt | .ge => some .ge
  | .shl => some .shl | .shr => some .shr | .plus => some .add | .minus => some .sub
  | .star => some .mul | .slash => some .div | .percent => some .rem
  | .dot => some .member | .arrow => some .ptrMember
  | _ => none

def strength : BinaryOp → Nat
  | .assign | .addAssign | .subAssign | .mulAssign | .divAssign | .remAssign | .shlAssign
  | .shrAssign | .andAssign | .xorAssign | .orAssign => assignStrength
  | .logicalOr => 3
  | .logicalAnd => 4
  | .bitOr => 5
  | .bitXor => 6
  | .bitAnd => 7
  | .eq | .ne => 8
  | .lt | .le | .gt | .ge => 9
  | .shl | .shr => 10
  | .add | .sub => 11
  | .mul | .div | .rem => 12
  | .member | .ptrMember => memberStrength

/-- Assignments group to the right, all other operators to the left. -/
def isRightAssoc (op : BinaryOp) : Bool := op.strength == assignStrength

def spelling : BinaryOp → String
  | .assign => "=" | .addAssign => "+=" | .subAssign => "-=" | .mulAssign => "*="
  | .divAssign => "/=" | .remAssign => "%=" | .shlAssign => "<<=" | .shrAssign => ">>="
  | .andAssign => "&=" | .xorAssign => "^=" | .orAssign => "|="
  | .logicalOr => "||" | .logicalAnd => "&&" | .bitOr => "|" | .bitXor => "^" | .bitAnd => "&"
  | .eq => "==" | .ne => "!=" | .lt => "<" | .le => "<=" | .gt => ">" | .ge => ">="
  | .shl => "<<" | .shr => ">>" | .add => "+" | .sub => "-" | .mul => "*" | .div => "/"
  | .rem => "%" | .member => "." | .ptrMember => "->"

def isComparison : BinaryOp → Bool
  | .eq | .ne | .lt | .le | .gt | .ge => true
  | _ => false

def isBitwise : BinaryOp → Bool
  | .bitAnd | .bitOr | .bitXor => true
  | _ => false

end BinaryOp

/-- Prefix operators. -/
inductive UnaryOp where
  | not | preDec | preInc | deref | bitNot | addrOf | neg
deriving DecidableEq, Repr, Inhabited

def UnaryOp.ofSymbol? : Symbol → Option UnaryOp
  | .bang => some .not | .minusMinus => some .preDec | .plusPlus => some .preInc
  | .star => some .deref | .tilde => some .bitNot | .amp => some .addrOf | .minus => some .neg
  | _ => none

def UnaryOp.spelling : UnaryOp → String
  | .not => "!" | .preDec => "--" | .preInc => "++" | .deref => "*" | .bitNot => "~"
  | .addrOf => "&" | .neg => "-"

/-- Postfix increment and decrement. -/
inductive PostOp where
  | inc | dec
deriving DecidableEq, Repr, Inhabited

def PostOp.spelling : PostOp → String
  | .inc => "++"
  | .dec => "--"

/-- Literals, with their text as written between the quotes. -/
inductive Literal where
  | number (text : String)
  | string (text : String)
  | char (text : String)
deriving DecidableEq, Repr, Inhabited

/-- One `*` of a declarator, with the qualifiers after it. -/
structure Pointer where
  qualifiers : List Keyword
deriving DecidableEq, Repr, Inhabited

mutual

/-- Expressions. -/
inductive Expr where
  | binary (op : BinaryOp) (lhs rhs : Expr)
  | conditional (cond yes no : Expr)
  | unary (op : UnaryOp) (arg : Expr)
  | post (op : PostOp) (arg : Expr)
  | cast (type : CType) (arg : Expr)
  | sizeofType (type : CType)
  | sizeofExpr (arg : Expr)
  | ident (name : String)
  | literal (lit : Literal)
  | call (callee : Expr) (args : List Expr)
  | index (base idx : Expr)
  /-- `{ a, [i] = b }` -/
  | arrayInit (entries : List ArrayEntry)
  /-- `{ .x = a }` -/
  | structInit (members : List MemberInit)

/-- An entry of an array initializer, with its designated index if any. -/
structure ArrayEntry where
  index : Option Expr
  value : Expr

/-- A member of a struct initializer. -/
structure MemberInit where
  name : String
  value : Expr

/-- A type as written in a cast or `sizeof`: a base type and a declarator, usually without a name. -/
structure CType where
  base : BaseType
  form : Form

/-- The base type of a declaration: keywords, one type name or record, in source order. -/
structure BaseType where
  parts : List TypePart

inductive TypePart where
  | keyword (k : Keyword)
  | name (n : String)
  | record (r : Record)

/-- `struct`, `union` or `enum`, with a tag, a body, or both. -/
structure Record where
  kind : RecordKind
  name : Option String
  body : Option RecordBody

inductive RecordBody where
  | fields (decls : List Declaration)
  | enumerators (items : List Enumerator)

structure Enumerator where
  name : String
  value : Option Expr

/-- `base form [= init], form [= init], ...` -/
structure Declaration where
  base : BaseType
  declarators : List Declarator

structure Declarator where
  form : Form
  init : Option Expr

/-- A declarator: pointers, then a name, a parenthesised declarator or nothing, then array and
parameter-list modifiers. -/
structure Form where
  pointers : List Pointer
  core : FormCore
  modifiers : List Modifier

inductive FormCore where
  | name (n : String)
  | nested (inner : Form)
  | anonymous

inductive Modifier where
  | array (size : Option Expr)
  | params (ps : Params)

structure Params where
  params : List Param
  variadic : Bool

structure Param where
  base : BaseType
  form : Form

end

instance : Inhabited Expr := ⟨.ident ""⟩
instance : Inhabited BaseType := ⟨⟨[]⟩⟩
instance : Inhabited Form := ⟨⟨[], .anonymous, []⟩⟩

mutual

/-- The name a declarator declares, looking through parentheses. -/
def Form.name? : Form → Option String
  | ⟨_, core, _⟩ => core.name?

def FormCore.name? : FormCore → Option String
  | .name n => some n
  | .nested inner => inner.name?
  | .anonymous => none

end

/-- A declarator declares a function when a name ends in a parameter list. -/
def Form.isFunction (f : Form) : Bool :=
  match f.core, f.modifiers.getLast? with
  | .name _, some (.params _) => true
  | _, _ => false

/-- How tightly the expression binds, from assignments (1) to atoms (15). -/
def Expr.strength : Expr → Nat
  | .binary op _ _ => op.strength
  | .conditional .. => ternaryStrength
  | .unary .. | .cast .. | .sizeofType _ | .sizeofExpr _ => unaryStrength
  | .post .. | .ident _ | .literal _ | .call .. | .index .. | .arrayInit _ | .structInit _ =>
    atomStrength

/-- What starts a `for` loop. -/
inductive ForInit where
  | declaration (d : Declaration)
  | expr (e : Expr)

mutual

/-- Statements. -/
inductive Stmt where
  | block (body : List Stmt)
  | if_ (cond : Expr) (thn : Stmt) (els : Option Stmt)
  | while_ (cond : Expr) (body : Stmt)
  | doWhile (body : Stmt) (cond : Expr)
  | for_ (init : Option ForInit) (cond step : Option Expr) (body : Stmt)
  | switch (value : Expr) (cases : List Case)
  | return_ (value : Option Expr)
  /-- An expression to run before every later `return` of the function. -/
  | defer (e : Expr)
  | declaration (d : Declaration)
  | expr (e : Expr)
  | break_
  | continue_
  | empty

/-- A `case` label, or `default` when there is none, and the statements after it. -/
structure Case where
  label : Option Expr
  body : List Stmt

end

instance : Inhabited Stmt := ⟨.empty⟩

/-- `[pub] typedef base form;` -/
structure Typedef where
  exported : Bool
  base : BaseType
  form : Form

def Typedef.name? (t : Typedef) : Option String := t.form.name?

/-- A function definition, or a prototype when it has no body. -/
structure FunctionDef where
  exported : Bool
  base : BaseType
  form : Form
  body : Option (List Stmt)

namespace FunctionDef

def name? (f : FunctionDef) : Option String := f.form.name?

/-- The prototype of the function. -/
def forward (f : FunctionDef) : FunctionDef := { f with body := none }

/-- Whether the function returns `void`: no pointer, and `void` alone among its base type's parts
once qualifiers and storage classes are set aside. -/
def returnsVoid (f : FunctionDef) : Bool :=
  f.form.pointers.isEmpty &&
    match f.base.parts.filter (fun p => match p with
      | .keyword k => !k.isModifier
      | _ => true) with
    | [.keyword .void] => true
    | _ => false

end FunctionDef

mutual

/-- The top-level elements of a module. -/
inductive Element where
  | import_ (i : Import)
  /-- `#include <header>`, which header inference adds. -/
  | header (name : String)
  /-- A preprocessor line passed through as written. -/
  | directive (line : String)
  /-- `#type NAME`: a type name that the module's C text gets from elsewhere. -/
  | typeDirective (name : String)
  /-- `#link NAME`: a library to link. -/
  | link (name : String)
  | typedef (t : Typedef)
  | recordForward (kind : RecordKind) (name : String)
  | recordDef (exported : Bool) (kind : RecordKind) (name : String) (fields : List Declaration)
  | enumDef (exported : Bool) (name : String) (items : List Enumerator)
  | function (f : FunctionDef)
  | global (d : Declaration)

/-- An `import` and, once resolved, the module it names. -/
structure Import where
  path : String
  pos : Position
  target : Option Module

/-- One parsed file or merged package: its name, its place, its elements, and the type names it
declares in order. -/
structure Module where
  name : String
  path : String
  elements : List Element
  typeNames : List String

end

instance : Inhabited Element := ⟨.directive ""⟩
instance : Inhabited Module := ⟨⟨"", "", [], []⟩⟩

/-- The imports of a module, in order. -/
def Module.imports (m : Module) : List Import :=
  m.elements.filterMap fun
    | .import_ i => some i
    | _ => none

end ModularC
