import ModularC.Path
import ModularC.Token.Scan
import ModularC.Syntax.Reader

/-!
The grammar of the module dialect, by recursive descent on fuel, with expressions read by
precedence climbing.
-/

namespace ModularC

namespace Parse

/-- The failure of a chain of calls that ran out of fuel. It marks the reader, and no rewind clears
the mark. -/
def exhausted : Parse α := do
  modify fun r => { r with outOfFuel := true }
  fail "less deeply nested input"

/-- The qualifiers after a `*`. -/
def qualifiers : Nat → Parse (List Keyword)
  | 0 => exhausted
  | fuel + 1 => do
    match (← peek).kind with
    | .keyword k =>
      if k == .const || k == .volatile || k == .restrict then
        let _ ← bump
        return k :: (← qualifiers fuel)
      return []
    | _ => return []

/-- The pointers in front of a declarator. -/
def pointerList : Nat → Parse (List Pointer)
  | 0 => exhausted
  | fuel + 1 => do
    if ← consume .star then
      let qs ← qualifiers fuel
      return ⟨qs⟩ :: (← pointerList fuel)
    return []

/-- A preprocessor line: `#type NAME` declares a type name, `#link NAME` names a library, and any
other line passes through. -/
def directiveElement (line : String) (pos : Position) : Parse Element := do
  match Text.words (String.ofList (line.toList.dropWhile (· == '#'))) with
  | "type" :: name :: _ =>
    register name pos
    return .typeDirective name
  | "link" :: name :: _ => return .link name
  | _ => return .directive line

/-- `import "path"`, with an optional `;`. -/
def importElement : Parse Element := do
  let pos ← expectKeyword .import_
  match (← peek).kind with
  | .string path =>
    let _ ← bump
    let _ ← consume .semicolon
    return .import_ ⟨path, pos, none⟩
  | _ => fail "import path string"

mutual

/-- An expression whose operators all bind more tightly than `floor`. -/
def expr : Nat → Nat → Parse Expr
  | 0, _ => exhausted
  | fuel + 1, floor => do
    let lhs ← unary fuel
    exprRest fuel floor lhs

/-- Folds the operators after `lhs` that bind more tightly than `floor` into it. -/
def exprRest : Nat → Nat → Expr → Parse Expr
  | 0, _, _ => exhausted
  | fuel + 1, floor, lhs => do
    if floor < ternaryStrength then
      if ← consume .question then
        let yes ← expr fuel 0
        let _ ← expect .colon
        let no ← expr fuel assignStrength
        return ← exprRest fuel floor (.conditional lhs yes no)
    match (← peek).kind with
    | .symbol s =>
      match BinaryOp.ofSymbol? s with
      | some op =>
        if op.strength ≤ floor then return lhs
        let _ ← bump
        let rhs ←
          if op == .member || op == .ptrMember then do
            let name ← expectWord
            trailers fuel (.ident name)
          else if op.isRightAssoc then expr fuel (op.strength - 1)
          else expr fuel op.strength
        exprRest fuel floor (.binary op lhs rhs)
      | none => return lhs
    | _ => return lhs

/-- Prefix operators, `sizeof`, casts, and postfix forms. -/
def unary : Nat → Parse Expr
  | 0 => exhausted
  | fuel + 1 => do
    if let .symbol s := (← peek).kind then
      if let some op := UnaryOp.ofSymbol? s then
        let _ ← bump
        return .unary op (← expr fuel unaryStrength)
    if ← consumeKeyword .sizeof then
      if (← check .lParen) && (← startsType (← peekAt 1)) then
        if let some t ← attempt (parenType fuel) then
          return .sizeofType t
      return .sizeofExpr (← expr fuel unaryStrength)
    if (← check .lParen) && (← startsType (← peekAt 1)) then
      if let some t ← attempt (parenType fuel) then
        return .cast t (← expr fuel unaryStrength)
    let a ← atom fuel
    trailers fuel a

/-- `( type-name )` -/
def parenType : Nat → Parse CType
  | 0 => exhausted
  | fuel + 1 => do
    let _ ← expect .lParen
    let t ← typeName fuel
    let _ ← expect .rParen
    return t

/-- Calls, indexing and postfix `++` and `--` after `e`. -/
def trailers : Nat → Expr → Parse Expr
  | 0, _ => exhausted
  | fuel + 1, e => do
    if ← consume .lParen then
      let args ← if ← consume .rParen then pure [] else callArgs fuel
      trailers fuel (.call e args)
    else if ← consume .lBracket then
      let i ← expr fuel 0
      let _ ← expect .rBracket
      trailers fuel (.index e i)
    else if ← consume .plusPlus then trailers fuel (.post .inc e)
    else if ← consume .minusMinus then trailers fuel (.post .dec e)
    else return e

/-- Arguments of a call up to its `)`, at least one. -/
def callArgs : Nat → Parse (List Expr)
  | 0 => exhausted
  | fuel + 1 => do
    let a ← expr fuel 0
    if ← consume .comma then return a :: (← callArgs fuel)
    let _ ← expect .rParen
    return [a]

/-- A word, a literal, a parenthesised expression or a braced initializer. -/
def atom : Nat → Parse Expr
  | 0 => exhausted
  | fuel + 1 => do
    match (← peek).kind with
    | .word w =>
      let _ ← bump
      return .ident w
    | .number n =>
      let _ ← bump
      return .literal (.number n)
    | .string s =>
      let _ ← bump
      return .literal (.string s)
    | .char c =>
      let _ ← bump
      return .literal (.char c)
    | .symbol .lParen =>
      let _ ← bump
      let inner ← expr fuel 0
      let _ ← expect .rParen
      return inner
    | .symbol .lBrace =>
      let _ ← bump
      if (← peek).isSymbol .dot then return .structInit (← structMembers fuel)
      return .arrayInit (← arrayEntries fuel)
    | _ => fail "expression"

/-- `.name = value` members up to the `}`. -/
def structMembers : Nat → Parse (List MemberInit)
  | 0 => exhausted
  | fuel + 1 => do
    if ← consume .rBrace then return []
    let _ ← expect .dot
    let name ← expectWord
    let _ ← expect .assign
    let value ← expr fuel 0
    if ← consume .comma then return ⟨name, value⟩ :: (← structMembers fuel)
    let _ ← expect .rBrace
    return [⟨name, value⟩]

/-- `[index] = value` and `value` entries up to the `}`. -/
def arrayEntries : Nat → Parse (List ArrayEntry)
  | 0 => exhausted
  | fuel + 1 => do
    if ← consume .rBrace then return []
    let index ← if ← consume .lBracket then do
        let i ← expr fuel 0
        let _ ← expect .rBracket
        let _ ← expect .assign
        pure (some i)
      else pure none
    let value ← expr fuel 0
    if ← consume .comma then return ⟨index, value⟩ :: (← arrayEntries fuel)
    let _ ← expect .rBrace
    return [⟨index, value⟩]

/-- A type name: a base type and a declarator that may leave out its name. -/
def typeName : Nat → Parse CType
  | 0 => exhausted
  | fuel + 1 => do
    let base ← baseType fuel
    let f ← form fuel true
    return ⟨base, f⟩

/-- Qualifiers, storage classes and base keywords in any number, and at most one record or type
name, which only comes before any base keyword. -/
def baseParts : Nat → Bool → Parse (List TypePart × Bool)
  | 0, _ => exhausted
  | fuel + 1, hasBase => do
    let t ← peek
    match t.kind with
    | .keyword k =>
      if k.isModifier then
        let _ ← bump
        let (ps, b) ← baseParts fuel hasBase
        return (.keyword k :: ps, b)
      else if k.isBaseType then
        let _ ← bump
        let (ps, b) ← baseParts fuel true
        return (.keyword k :: ps, b)
      else if k.isRecord && !hasBase then
        let r ← record fuel
        let (ps, b) ← baseParts fuel true
        return (.record r :: ps, b)
      else return ([], hasBase)
    | .word w =>
      if !hasBase && (← get).names.contains w then
        let _ ← bump
        let (ps, b) ← baseParts fuel true
        return (.name w :: ps, b)
      else return ([], hasBase)
    | _ => return ([], hasBase)

/-- A base type, which must name a type. -/
def baseType : Nat → Parse BaseType
  | 0 => exhausted
  | fuel + 1 => do
    let (parts, hasBase) ← baseParts fuel false
    if !hasBase then fail "type"
    return ⟨parts⟩

/-- `struct`, `union` or `enum`, a tag, and a body; the tag or the body may be left out. -/
def record : Nat → Parse Record
  | 0 => exhausted
  | fuel + 1 => do
    let t ← bump
    let kind ← match t.kind with
      | .keyword .struct => pure RecordKind.struct
      | .keyword .union => pure .union
      | .keyword .enum => pure .enum
      | _ => fail "`struct`, `union` or `enum`"
    let name ← if (← peek).word?.isSome then some <$> expectWord else pure none
    if !(← consume .lBrace) then
      if name.isNone then fail (kind.spelling ++ " name or body")
      return ⟨kind, name, none⟩
    if kind == .enum then return ⟨kind, name, some (.enumerators (← enumerators fuel))⟩
    return ⟨kind, name, some (.fields (← fields fuel))⟩

/-- Field declarations up to the `}`. -/
def fields : Nat → Parse (List Declaration)
  | 0 => exhausted
  | fuel + 1 => do
    if ← consume .rBrace then return []
    let base ← baseType fuel
    let f ← form fuel false
    let d ← declarators fuel base f
    return d :: (← fields fuel)

/-- Enumerators, each with an optional value, up to the `}`. -/
def enumerators : Nat → Parse (List Enumerator)
  | 0 => exhausted
  | fuel + 1 => do
    if ← consume .rBrace then return []
    let name ← expectWord
    let value ← if ← consume .assign then some <$> expr fuel 0 else pure none
    if ← consume .comma then return ⟨name, value⟩ :: (← enumerators fuel)
    let _ ← expect .rBrace
    return [⟨name, value⟩]

/-- The declarators after the first form, with initializers, and the closing `;`. -/
def declarators : Nat → BaseType → Form → Parse Declaration
  | 0, _, _ => exhausted
  | fuel + 1, base, first => do
    let ds ← declaratorList fuel first
    let _ ← expect .semicolon
    return ⟨base, ds⟩

def declaratorList : Nat → Form → Parse (List Declarator)
  | 0, _ => exhausted
  | fuel + 1, f => do
    let init ← if ← consume .assign then some <$> expr fuel 0 else pure none
    if ← consume .comma then
      let next ← form fuel false
      return ⟨f, init⟩ :: (← declaratorList fuel next)
    return [⟨f, init⟩]

/-- A declarator; its name may be left out only when `anonymousOk`. -/
def form : Nat → Bool → Parse Form
  | 0, _ => exhausted
  | fuel + 1, anonymousOk => do
    let ps ← pointerList fuel
    let core ←
      if (← peek).word?.isSome then FormCore.name <$> expectWord
      else if (← check .lParen) && (← peekAt 1).isSymbol .star then do
        let _ ← bump
        let inner ← form fuel anonymousOk
        let _ ← expect .rParen
        pure (FormCore.nested inner)
      else if anonymousOk then pure .anonymous
      else fail "declarator name"
    let mods ← modifiers fuel
    return ⟨ps, core, mods⟩

/-- Array sizes and parameter lists after a declarator's core. -/
def modifiers : Nat → Parse (List Modifier)
  | 0 => exhausted
  | fuel + 1 => do
    if ← consume .lBracket then
      let size ← if ← check .rBracket then pure none else some <$> expr fuel 0
      let _ ← expect .rBracket
      return .array size :: (← modifiers fuel)
    if ← check .lParen then
      let ps ← params fuel
      return .params ps :: (← modifiers fuel)
    return []

/-- `( param, ..., ... )` -/
def params : Nat → Parse Params
  | 0 => exhausted
  | fuel + 1 => do
    let _ ← expect .lParen
    if ← consume .rParen then return ⟨[], false⟩
    paramList fuel

def paramList : Nat → Parse Params
  | 0 => exhausted
  | fuel + 1 => do
    if ← consume .ellipsis then
      let _ ← expect .rParen
      return ⟨[], true⟩
    let base ← baseType fuel
    let f ← form fuel true
    if ← consume .comma then
      let rest ← paramList fuel
      return { rest with params := ⟨base, f⟩ :: rest.params }
    let _ ← expect .rParen
    return ⟨[⟨base, f⟩], false⟩

/-- `{ stmt* }` -/
def block : Nat → Parse (List Stmt)
  | 0 => exhausted
  | fuel + 1 => do
    let _ ← expect .lBrace
    blockItems fuel

def blockItems : Nat → Parse (List Stmt)
  | 0 => exhausted
  | fuel + 1 => do
    if ← consume .rBrace then return []
    let s ← stmt fuel
    return s :: (← blockItems fuel)

def stmt : Nat → Parse Stmt
  | 0 => exhausted
  | fuel + 1 => do
    match (← peek).kind with
    | .keyword .if_ =>
      let _ ← bump
      let c ← condition fuel
      let thn ← stmt fuel
      let els ← if ← consumeKeyword .else_ then some <$> stmt fuel else pure none
      return .if_ c thn els
    | .keyword .while_ =>
      let _ ← bump
      let c ← condition fuel
      return .while_ c (← stmt fuel)
    | .keyword .do_ =>
      let _ ← bump
      let body ← stmt fuel
      let _ ← expectKeyword .while_
      let c ← condition fuel
      let _ ← expect .semicolon
      return .doWhile body c
    | .keyword .for_ => forStmt fuel
    | .keyword .switch => switchStmt fuel
    | .keyword .return_ =>
      let _ ← bump
      let value ← if ← check .semicolon then pure none else some <$> expr fuel 0
      let _ ← expect .semicolon
      return .return_ value
    | .keyword .defer =>
      let _ ← bump
      let e ← expr fuel 0
      let _ ← expect .semicolon
      return .defer e
    | .keyword .break_ =>
      let _ ← bump
      let _ ← expect .semicolon
      return .break_
    | .keyword .continue_ =>
      let _ ← bump
      let _ ← expect .semicolon
      return .continue_
    | .keyword _ => simpleStmt fuel
    | _ =>
      if ← check .lBrace then return .block (← block fuel)
      if ← consume .semicolon then return .empty
      simpleStmt fuel

/-- A declaration when the next token can begin a type, an expression statement otherwise. -/
def simpleStmt : Nat → Parse Stmt
  | 0 => exhausted
  | fuel + 1 => do
    if ← startsType (← peek) then
      let base ← baseType fuel
      let f ← form fuel false
      return .declaration (← declarators fuel base f)
    let e ← expr fuel 0
    let _ ← expect .semicolon
    return .expr e

/-- `( expr )` -/
def condition : Nat → Parse Expr
  | 0 => exhausted
  | fuel + 1 => do
    let _ ← expect .lParen
    let c ← expr fuel 0
    let _ ← expect .rParen
    return c

def forStmt : Nat → Parse Stmt
  | 0 => exhausted
  | fuel + 1 => do
    let _ ← expectKeyword .for_
    let _ ← expect .lParen
    let init ←
      if ← consume .semicolon then pure none
      else if ← startsType (← peek) then do
        let base ← baseType fuel
        let f ← form fuel false
        pure (some (ForInit.declaration (← declarators fuel base f)))
      else do
        let e ← expr fuel 0
        let _ ← expect .semicolon
        pure (some (ForInit.expr e))
    let cond ← if ← check .semicolon then pure none else some <$> expr fuel 0
    let _ ← expect .semicolon
    let step ← if ← check .rParen then pure none else some <$> expr fuel 0
    let _ ← expect .rParen
    return .for_ init cond step (← stmt fuel)

def switchStmt : Nat → Parse Stmt
  | 0 => exhausted
  | fuel + 1 => do
    let _ ← expectKeyword .switch
    let v ← condition fuel
    let _ ← expect .lBrace
    return .switch v (← switchCases fuel #[])

/-- Labels and the statements after each, up to the `}`; a statement before any label is an
error. -/
def switchCases : Nat → Array Case → Parse (List Case)
  | 0, _ => exhausted
  | fuel + 1, cases => do
    if ← consume .rBrace then return cases.toList
    if ← consumeKeyword .case then
      let l ← expr fuel 0
      let _ ← expect .colon
      switchCases fuel (cases.push ⟨some l, []⟩)
    else if ← consumeKeyword .default then
      let _ ← expect .colon
      switchCases fuel (cases.push ⟨none, []⟩)
    else
      match cases.back? with
      | none => fail "`case` or `default`"
      | some c =>
        let s ← stmt fuel
        switchCases fuel (cases.pop.push { c with body := c.body ++ [s] })

/-- `typedef base form;`, which declares the form's name as a type name. -/
def typedefElement : Nat → Bool → Parse Element
  | 0, _ => exhausted
  | fuel + 1, exported => do
    let _ ← expectKeyword .typedef
    let base ← baseType fuel
    let f ← form fuel false
    match f.name? with
    | none => fail "typedef name"
    | some name =>
      let _ ← expect .semicolon
      register name (← get).namePos
      return .typedef ⟨exported, base, f⟩

/-- A record with a tag and a body, then `;`. -/
def recordDefinition : Nat → Bool → Parse Element
  | 0, _ => exhausted
  | fuel + 1, exported => do
    let r ← record fuel
    let _ ← expect .semicolon
    match r with
    | ⟨kind, some name, some (.fields fs)⟩ => return .recordDef exported kind name fs
    | ⟨_, some name, some (.enumerators es)⟩ => return .enumDef exported name es
    | _ => fail "named definition"

/-- `struct tag;` or `union tag;` -/
def recordForward : Nat → Parse Element
  | 0 => exhausted
  | _ + 1 => do
    let t ← bump
    let kind ← match t.kind with
      | .keyword .struct => pure RecordKind.struct
      | .keyword .union => pure .union
      | _ => fail "`struct` or `union`"
    let name ← expectWord
    let _ ← expect .semicolon
    return .recordForward kind name

/-- A typedef, record definition or forward declaration, function, or global variable, with an
optional `pub` in front, which variables may not carry. -/
def declarationElement : Nat → Parse Element
  | 0 => exhausted
  | fuel + 1 => do
    let exported ← consumeKeyword .pub
    let t ← peek
    if t.isKeyword .typedef then return ← typedefElement fuel exported
    if t.isKeyword .struct || t.isKeyword .union || t.isKeyword .enum then
      if let some e ← attempt (recordDefinition fuel exported) then return e
      if let some e ← attempt (recordForward fuel) then return e
    let base ← baseType fuel
    let f ← form fuel false
    if f.isFunction then
      let body ← if ← consume .semicolon then pure none else some <$> block fuel
      return .function ⟨exported, base, f, body⟩
    if exported then
      throw (.pubVariable (← read).file (← get).namePos (f.name?.getD ""))
    return .global (← declarators fuel base f)

/-- One element; a stray `;` gives none. -/
def element : Nat → Parse (Option Element)
  | 0 => exhausted
  | fuel + 1 => do
    let t ← peek
    match t.kind with
    | .directive line =>
      let _ ← bump
      return some (← directiveElement line t.pos)
    | .keyword .import_ => return some (← importElement)
    | .symbol .semicolon =>
      let _ ← bump
      return none
    | _ => return some (← declarationElement fuel)

/-- The elements up to the end of input. -/
def elements : Nat → Parse (List Element)
  | 0 => exhausted
  | fuel + 1 => do
    if (← peek).isEof then return []
    let e ← element fuel
    return e.toList ++ (← elements fuel)

end

/-- Fuel enough for every chain of calls over `n` tokens. -/
def fuelFor (n : Nat) : Nat := 64 * (n + 1)

end Parse

/-- Parses a module from its tokens. `names` holds the type names visible to it; `path` names the
module and its file in error messages. -/
def Module.ofTokens (tokens : List Token) (names : TypeNames) (path : String) :
    Except Error Module :=
  let src := Source.ofTokens tokens path
  match (((Parse.elements (Parse.fuelFor src.tokens.size)).run src).run).run (Reader.start names) with
  | (.ok elements, r) => .ok ⟨Path.moduleName path, path, elements, r.declared.toList⟩
  | (.error e, _) => .error e

/-- Parses a module from its source text. -/
def Module.parse (source : String) (names : TypeNames) (path : String) : Except Error Module :=
  Module.ofTokens (tokenize source) names path

end ModularC
