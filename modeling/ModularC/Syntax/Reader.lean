import ModularC.Text.Blank
import ModularC.Token.Basic
import ModularC.TypeNames
import ModularC.Error
import ModularC.Syntax.Basic

/-!
What a parse reads, and the reader state it changes.
-/

namespace ModularC

/-- The tokens of a parse, ending with an end-of-input token, and the file they come from. -/
structure Source where
  tokens : Array Token
  file : String

/-- The state of a parse. -/
structure Reader where
  index : Nat
  names : TypeNames
  declared : Array String
  namePos : Position
  /-- Whether a chain of calls ran out of fuel. -/
  outOfFuel : Bool

namespace Source

/-- The tokens of a file; an end-of-input token is added when they lack one. -/
def ofTokens (tokens : List Token) (file : String) : Source :=
  let tokens : List Token := match tokens.getLast? with
    | some t => if t.isEof then tokens else tokens ++ [⟨.eof, t.pos⟩]
    | none => [⟨.eof, ⟨0, 0⟩⟩]
  ⟨tokens.toArray, file⟩

/-- The token `n` places after the cursor `i`, or the last token when that is past the end. -/
def peekAt (s : Source) (i n : Nat) : Token :=
  s.tokens.getD (min (i + n) (s.tokens.size - 1)) ⟨.eof, ⟨0, 0⟩⟩

/-- The tokens around the cursor `i`, three before it to four from it, as they read. -/
def context (s : Source) (i : Nat) : String :=
  let around := s.tokens.extract (i - 3) (min (i + 4) s.tokens.size)
  " ".intercalate (around.toList.map Token.spelling |>.filter (· != ""))

/-- The error for the token under the cursor `i`: its own message when it is an error token,
otherwise what was expected and what was found. -/
def error (s : Source) (i : Nat) (expected : String) : Error :=
  let t := s.peekAt i 0
  match t.kind with
  | .error message => .lex s.file t.pos message
  | _ => .unexpected s.file t.pos expected t.describe (s.context i)

end Source

/-- A reader at the first token, knowing the type names `names`. -/
def Reader.start (names : TypeNames) : Reader := ⟨0, names, #[], ⟨0, 0⟩, false⟩

/-- A parse: reads the source, changes the reader and may fail. A failure keeps the reader it
failed with. -/
abbrev Parse := ReaderT Source (ExceptT Error (StateM Reader))

namespace Parse

def peekAt (n : Nat) : Parse Token := return (← read).peekAt (← get).index n

def peek : Parse Token := peekAt 0

/-- Fails with the error for the token under the cursor. -/
def fail (expected : String) : Parse α := do throw ((← read).error (← get).index expected)

/-- Takes the token under the cursor; the end of input is never passed. -/
def bump : Parse Token := do
  let t ← peek
  if !t.isEof then modify fun r => { r with index := r.index + 1 }
  return t

def check (s : Symbol) : Parse Bool := return (← peek).isSymbol s

/-- Takes the symbol `s` if it is under the cursor. -/
def consume (s : Symbol) : Parse Bool := do
  if ← check s then
    modify fun r => { r with index := r.index + 1 }
    return true
  return false

def consumeKeyword (k : Keyword) : Parse Bool := do
  if (← peek).isKeyword k then
    modify fun r => { r with index := r.index + 1 }
    return true
  return false

def expect (s : Symbol) : Parse Position := do
  if ← check s then return (← bump).pos
  fail ("`" ++ s.spelling ++ "`")

def expectKeyword (k : Keyword) : Parse Position := do
  if (← peek).isKeyword k then return (← bump).pos
  fail ("`" ++ k.spelling ++ "`")

/-- Takes a word and remembers its place. -/
def expectWord : Parse String := do
  match (← peek).kind with
  | .word w =>
    let t ← bump
    modify fun r => { r with namePos := t.pos }
    return w
  | _ => fail "identifier"

/-- Runs `p`; when it fails, rewinds the cursor, the type names and the declared names, and gives
nothing. -/
def attempt (p : Parse α) : Parse (Option α) := do
  let r ← get
  let index := r.index
  let mark := r.names.checkpoint
  let declared := r.declared.size
  tryCatch (some <$> p) fun _ => do
    modify fun r => { r with
      index := index, names := r.names.rollback mark, declared := r.declared.extract 0 declared }
    return none

/-- Declares a type name at `pos`; declaring one that is known already is an error. -/
def register (name : String) (pos : Position) : Parse Unit := do
  let r ← get
  match r.names.register name with
  | (true, names) => set { r with names, declared := r.declared.push name }
  | (false, _) => throw (.redefinition (← read).file pos name)

/-- Whether a token can begin a type: a type keyword or a known type name. -/
def startsType (t : Token) : Parse Bool := do
  match t.kind with
  | .keyword k => return k.startsType
  | .word w => return (← get).names.contains w
  | _ => return false

end Parse

end ModularC
