import ModularC.Syntax.Parse

/-!
The expression grammar by levels, one rule for each binding strength, read by recursive
descent.
-/

namespace ModularC

namespace Parse

/-- Takes a binary operator of binding strength `s` when one is under the cursor. -/
def operatorOf (s : Nat) : Parse (Option BinaryOp) := do
  match (← peek).kind with
  | .symbol sym =>
    match BinaryOp.ofSymbol? sym with
    | some op =>
      if op.strength = s then
        let _ ← bump
        return some op
      return none
    | none => return none
  | _ => return none

end Parse

namespace Layered

open Parse

mutual

/-- `assign := cond (AOP assign)?` -/
def assign : Nat → Parse Expr
  | 0 => exhausted
  | fuel + 1 => do
    let lhs ← cond fuel
    match ← operatorOf assignStrength with
    | some op => return .binary op lhs (← assign fuel)
    | none => return lhs

/-- `cond := lor ('?' assign ':' cond)?` -/
def cond : Nat → Parse Expr
  | 0 => exhausted
  | fuel + 1 => do
    let c ← chain fuel 3
    if ← consume .question then
      let yes ← assign fuel
      let _ ← expect .colon
      return .conditional c yes (← cond fuel)
    return c

/-- The binary level of strength `s`: operands of the next level joined by the operators of
strength `s`; past the last binary level, `mem`. -/
def chain : Nat → Nat → Parse Expr
  | 0, _ => exhausted
  | fuel + 1, s => do
    if s < unaryStrength then
      let lhs ← chain fuel (s + 1)
      chainRest fuel s lhs
    else mem fuel

/-- `(OP_s chain (s+1))*` after `lhs`, folded to the left. -/
def chainRest : Nat → Nat → Expr → Parse Expr
  | 0, _, _ => exhausted
  | fuel + 1, s, lhs => do
    match ← operatorOf s with
    | some op => chainRest fuel s (.binary op lhs (← chain fuel (s + 1)))
    | none => return lhs

/-- `mem := unary (('.' | '->') WORD post*)*` -/
def mem : Nat → Parse Expr
  | 0 => exhausted
  | fuel + 1 => do
    let e ← unary fuel
    memRest fuel e

/-- `(('.' | '->') WORD post*)*` after `lhs`. -/
def memRest : Nat → Expr → Parse Expr
  | 0, _ => exhausted
  | fuel + 1, lhs => do
    match ← operatorOf memberStrength with
    | some op =>
      let name ← expectWord
      memRest fuel (.binary op lhs (← post fuel (.ident name)))
    | none => return lhs

/-- `unary := PREFIX mem | 'sizeof' '(' type ')' | 'sizeof' mem | '(' type ')' mem | atom post*` -/
def unary : Nat → Parse Expr
  | 0 => exhausted
  | fuel + 1 => do
    if let .symbol s := (← peek).kind then
      if let some op := UnaryOp.ofSymbol? s then
        let _ ← bump
        return .unary op (← mem fuel)
    if ← consumeKeyword .sizeof then
      if let some t ← attempt (parenType fuel) then
        return .sizeofType t
      return .sizeofExpr (← mem fuel)
    if let some t ← attempt (parenType fuel) then
      return .cast t (← mem fuel)
    let a ← atom fuel
    post fuel a

/-- `post*` after `e`. -/
def post : Nat → Expr → Parse Expr
  | 0, _ => exhausted
  | fuel + 1, e => do
    if ← consume .lParen then
      let xs ← if ← consume .rParen then pure [] else args fuel
      post fuel (.call e xs)
    else if ← consume .lBracket then
      let i ← assign fuel
      let _ ← expect .rBracket
      post fuel (.index e i)
    else if ← consume .plusPlus then post fuel (.post .inc e)
    else if ← consume .minusMinus then post fuel (.post .dec e)
    else return e

/-- `assign (',' assign)* ')'` -/
def args : Nat → Parse (List Expr)
  | 0 => exhausted
  | fuel + 1 => do
    let a ← assign fuel
    if ← consume .comma then return a :: (← args fuel)
    let _ ← expect .rParen
    return [a]

/-- A word, a literal, `( assign )` or a braced initializer. -/
def atom : Nat → Parse Expr
  | 0 => exhausted
  | fuel + 1 => do
    match (← peek).kind with
    | .word w =>
      let _ ← bump
      return .ident w
    | .number n =>
      let _ ← bump
      return .literal (.number n)
    | .string s =>
      let _ ← bump
      return .literal (.string s)
    | .char c =>
      let _ ← bump
      return .literal (.char c)
    | .symbol .lParen =>
      let _ ← bump
      let inner ← assign fuel
      let _ ← expect .rParen
      return inner
    | .symbol .lBrace =>
      let _ ← bump
      if (← peek).isSymbol .dot then return .structInit (← members fuel)
      return .arrayInit (← entries fuel)
    | _ => fail "expression"

/-- `.name = assign` members up to the `}`. -/
def members : Nat → Parse (List MemberInit)
  | 0 => exhausted
  | fuel + 1 => do
    if ← consume .rBrace then return []
    let _ ← expect .dot
    let name ← expectWord
    let _ ← expect .assign
    let value ← assign fuel
    if ← consume .comma then return ⟨name, value⟩ :: (← members fuel)
    let _ ← expect .rBrace
    return [⟨name, value⟩]

/-- `[assign] = assign` and `assign` entries up to the `}`. -/
def entries : Nat → Parse (List ArrayEntry)
  | 0 => exhausted
  | fuel + 1 => do
    if ← consume .rBrace then return []
    let index ← if ← consume .lBracket then do
        let i ← assign fuel
        let _ ← expect .rBracket
        let _ ← expect .assign
        pure (some i)
      else pure none
    let value ← assign fuel
    if ← consume .comma then return ⟨index, value⟩ :: (← entries fuel)
    let _ ← expect .rBrace
    return [⟨index, value⟩]

end

end Layered

/-- An expression read by the layered grammar from `assign` over `tokens`, knowing the type names
`names`, and the index of the token where it stops. -/
def Expr.readLayered (tokens : List Token) (names : TypeNames) : Except Error (Expr × Nat) :=
  let src := Source.ofTokens tokens ""
  match (((Layered.assign (Parse.fuelFor src.tokens.size)).run src).run).run (Reader.start names) with
  | (.ok e, r) => .ok (e, r.index)
  | (.error e, _) => .error e

end ModularC
