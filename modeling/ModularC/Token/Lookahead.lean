import ModularC.Token.Scan

/-!
The lexer read one token at a time, with lookahead and tokens put back.
-/

namespace ModularC

/-- A token stream being read: the cursor, whether its last token was scanned, and the tokens
read ahead or put back, nearest first. -/
structure Lexer where
  cursor : Cursor
  finished : Bool
  pending : List Token

namespace Lexer

def ofString (s : String) : Lexer := ⟨Cursor.ofString s, false, []⟩

/-- Scans one more token, past the queue. -/
def pull (l : Lexer) : Token × Lexer :=
  if l.finished then (⟨.eof, l.cursor.pos⟩, l)
  else
    let (t, c, finished) := l.cursor.nextToken
    (t, { l with cursor := c, finished })

/-- Reads the next token: the head of the queue, or a new one. -/
def next (l : Lexer) : Token × Lexer :=
  match l.pending with
  | t :: ts => (t, { l with pending := ts })
  | [] => l.pull

/-- Scans `k` more tokens onto the end of the queue. -/
def fill : Nat → Lexer → Lexer
  | 0, l => l
  | k + 1, l =>
    let (t, l) := l.pull
    fill k { l with pending := l.pending ++ [t] }

/-- The token `n` places ahead, `0` being the next; the queue grows to reach it. -/
def peek (l : Lexer) (n : Nat) : Token × Lexer :=
  let l := fill (n + 1 - l.pending.length) l
  (l.pending.getD n ⟨.eof, l.cursor.pos⟩, l)

/-- Puts a token back in front of the queue. -/
def unget (l : Lexer) (t : Token) : Lexer := { l with pending := t :: l.pending }

/-- A request to a token stream. -/
inductive Request where
  | next
  | peek (n : Nat)
  /-- Puts back the most recent token that `next` gave and that was not put back yet. -/
  | unget

/-- Answers requests in order. `given` holds the tokens that `next` gave and that were not put
back, most recent first; an `unget` with none left answers nothing and changes nothing. -/
def answer (l : Lexer) (given : List Token) : List Request → List (Option Token)
  | [] => []
  | .next :: rs =>
    let (t, l) := l.next
    some t :: answer l (t :: given) rs
  | .peek n :: rs =>
    let (t, l) := l.peek n
    some t :: answer l given rs
  | .unget :: rs =>
    match given with
    | t :: given => some t :: answer (l.unget t) given rs
    | [] => none :: answer l [] rs

end Lexer

end ModularC
