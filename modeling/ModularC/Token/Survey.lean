import ModularC.Text.Blank
import ModularC.Token.Basic

/-!
What a file declares, read off its tokens without parsing.
-/

namespace ModularC

namespace Survey

/-- Splits a declaration off the front of `ts`: the tokens up to its `;` at brace depth `d` zero,
or up to the end of input, and the tokens after that `;` or end. -/
def statement (d : Nat) : List Token → List Token × List Token
  | [] => ([], [])
  | t :: ts =>
    match t.kind with
    | .symbol .semicolon => if d = 0 then ([], ts) else
        let (body, rest) := statement d ts
        (t :: body, rest)
    | .eof => ([], ts)
    | .symbol .lBrace =>
        let (body, rest) := statement (d + 1) ts
        (t :: body, rest)
    | .symbol .rBrace =>
        let (body, rest) := statement (d - 1) ts
        (t :: body, rest)
    | _ =>
        let (body, rest) := statement d ts
        (t :: body, rest)

theorem statement_rest_length_le (d : Nat) (ts : List Token) :
    (statement d ts).2.length ≤ ts.length := by
  induction ts generalizing d with
  | nil => simp [statement]
  | cons t ts ih =>
    unfold statement
    split
    · split
      · simp
      · have := ih d; simp; omega
    · simp
    · have := ih (d + 1); simp; omega
    · have := ih (d - 1); simp; omega
    · have := ih d; simp; omega

/-- The tokens after the group that `depth` open brackets leave open: after the `close` that
brings the depth to zero, or nothing when no such `close` comes. -/
def afterGroup (openSym close : Symbol) (depth : Nat) : List Token → List Token
  | [] => []
  | t :: ts =>
    if t.isSymbol openSym then afterGroup openSym close (depth + 1) ts
    else if t.isSymbol close then
      if depth - 1 = 0 then ts else afterGroup openSym close (depth - 1) ts
    else afterGroup openSym close depth ts

/-- The name a `typedef` declares, from the tokens between `typedef` and `;`. With a braced body,
the first word after it; otherwise the last word, a final parenthesised parameter list aside. -/
def typedefName (body : List Token) : Option String :=
  match body.dropWhile (fun t => !t.isSymbol .lBrace) with
  | _ :: inner => (afterGroup .lBrace .rBrace 1 inner).findSome? Token.word?
  | [] =>
    match body.reverse with
    | t :: before =>
      if t.isSymbol .rParen then (afterGroup .rParen .lParen 1 before).findSome? Token.word?
      else (t :: before).findSome? Token.word?
    | [] => none

/-- The name a `#type` line declares: the word after `type`, leading `#`s dropped. -/
def directiveName (line : String) : Option String :=
  match Text.words (String.ofList (line.toList.dropWhile (· == '#'))) with
  | "type" :: name :: _ => some name
  | _ => none

end Survey

open Survey in
/-- Type names that `typedef`s and `#type` lines introduce, in order. -/
def surveyTypeNames : List Token → List String
  | [] => []
  | t :: ts =>
    match t.kind with
    | .keyword .typedef =>
      have := statement_rest_length_le 0 ts
      (typedefName (statement 0 ts).1).toList ++ surveyTypeNames (statement 0 ts).2
    | .directive line => (directiveName line).toList ++ surveyTypeNames ts
    | _ => surveyTypeNames ts
termination_by ts => ts.length

/-- The paths of `import` keywords directly followed by a string literal, in order. -/
def surveyImports : List Token → List String
  | a :: b :: rest =>
    match a.kind, b.kind with
    | .keyword .import_, .string path => path :: surveyImports (b :: rest)
    | _, _ => surveyImports (b :: rest)
  | _ => []

end ModularC
