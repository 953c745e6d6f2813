import ModularC.Text.Blank
import ModularC.Token.Basic

/-!
Scanning source text into tokens.
-/

namespace ModularC

open Text (isBlank dropBlankEnd)

/-- Where scanning stands: the characters left, the place of the first of them, and whether only
blanks stand before it on its line. -/
structure Cursor where
  rest : List Char
  pos : Position
  lineStart : Bool

namespace Cursor

/-- The start of a text. -/
def ofString (s : String) : Cursor := ⟨s.toList, Position.start, true⟩

/-- Consumes `n` characters, counting lines and columns over them. -/
def advance (c : Cursor) (n : Nat) : Cursor :=
  { c with rest := c.rest.drop n, pos := (c.rest.take n).foldl Position.step c.pos }

/-- Consumes the blanks in front; a newline among them puts the cursor at a line start. -/
def skipBlanks (c : Cursor) : Cursor :=
  let blanks := c.rest.takeWhile isBlank
  { c.advance blanks.length with lineStart := c.lineStart || blanks.contains '\n' }

@[simp] theorem advance_rest (c : Cursor) (n : Nat) : (c.advance n).rest = c.rest.drop n := rfl

theorem skipBlanks_rest_length_le (c : Cursor) : c.skipBlanks.rest.length ≤ c.rest.length := by
  simp [skipBlanks]

theorem advance_succ_lt {c : Cursor} {x : Char} {xs : List Char} (h : c.rest = x :: xs)
    (k : Nat) : (c.advance (k + 1)).rest.length < c.rest.length := by
  rw [advance_rest, h, List.length_drop, List.length_cons]
  omega

/-- Consuming at least one character of a cursor `c` that has no more characters than `c₀` leaves
fewer characters than `c₀` has. -/
theorem advance_lt {c₀ c : Cursor} {x : Char} {xs : List Char}
    (hc : c.rest.length ≤ c₀.rest.length) (h : c.rest = x :: xs) {k : Nat} (hk : 0 < k) :
    (c.advance k).rest.length < c₀.rest.length := by
  obtain ⟨j, rfl⟩ : ∃ j, k = j + 1 := ⟨k - 1, by omega⟩
  exact Nat.lt_of_lt_of_le (advance_succ_lt h j) hc

end Cursor

/-! ### Lexemes over characters -/

/-- Characters of words: ASCII letters, digits and the underscore. -/
def isWordChar (c : Char) : Bool := c.isAlphanum || c == '_'

def isHexDigit (c : Char) : Bool :=
  c.isDigit || ('a' ≤ c && c ≤ 'f') || ('A' ≤ c && c ≤ 'F')

/-- The letters of an integer suffix, `u` and `l` in either case. -/
def isIntSuffix (c : Char) : Bool := c == 'u' || c == 'U' || c == 'l' || c == 'L'

/-- The letters of a floating suffix, `f` and `l` in either case. -/
def isFloatSuffix (c : Char) : Bool := c == 'f' || c == 'F' || c == 'l' || c == 'L'

def startsWithDigit : List Char → Bool
  | c :: _ => c.isDigit
  | [] => false

/-- An integer suffix: up to three suffix letters. -/
def intSuffix (cs : List Char) : List Char := (cs.takeWhile isIntSuffix).take 3

/-- A floating suffix: at most one suffix letter. -/
def floatSuffix : List Char → List Char
  | c :: _ => if isFloatSuffix c then [c] else []
  | [] => []

/-- An exponent: `e` or `E`, an optional sign and at least one digit. -/
def exponent : List Char → List Char
  | e :: s :: r =>
    if (e == 'e' || e == 'E') && (s.isDigit || ((s == '+' || s == '-') && startsWithDigit r)) then
      e :: s :: r.takeWhile Char.isDigit
    else []
  | _ => []

/-- The exponent and suffix that end a decimal literal; a fraction or an exponent makes the
literal floating, and a floating literal takes a floating suffix. -/
def exponentAndSuffix (floating : Bool) (cs : List Char) : List Char :=
  let e := exponent cs
  e ++ if floating || !e.isEmpty then floatSuffix (cs.drop e.length) else intSuffix (cs.drop e.length)

/-- What follows the integer digits of a decimal literal: a fraction, then exponent and suffix. -/
def afterWhole : List Char → List Char
  | '.' :: r =>
    let d := r.takeWhile Char.isDigit
    '.' :: d ++ exponentAndSuffix true (r.drop d.length)
  | cs => exponentAndSuffix false cs

/-- The characters of a numeric literal after its first character `x`, a digit or a point, or
`none` for `0x` with no hexadecimal digit after it. -/
def numberTail (x : Char) (xs : List Char) : Option (List Char) :=
  match x, xs with
  | '0', h :: r =>
    if h == 'x' || h == 'X' then
      let d := r.takeWhile isHexDigit
      if d.isEmpty then none else some (h :: d ++ intSuffix (r.drop d.length))
    else
      let d := xs.takeWhile Char.isDigit
      some (d ++ afterWhole (xs.drop d.length))
  | '.', _ =>
    let d := xs.takeWhile Char.isDigit
    some (d ++ exponentAndSuffix true (xs.drop d.length))
  | _, _ =>
    let d := xs.takeWhile Char.isDigit
    some (d ++ afterWhole (xs.drop d.length))

/-- The body of a preprocessor line after its first character: up to the first newline that no
backslash directly precedes. A backslash and newline continue the line and stay in it. -/
def lineBody : List Char → List Char
  | [] => []
  | '\n' :: _ => []
  | '\\' :: '\n' :: r => '\\' :: '\n' :: lineBody r
  | c :: r => c :: lineBody r

/-- The text of a block comment after its opening, up to its close, if it has one. -/
def commentBody : List Char → Option (List Char)
  | [] => none
  | '*' :: '/' :: _ => some []
  | c :: r => (commentBody r).map (c :: ·)

/-- A quoted literal after its opening quote `q`: its body, escapes kept as written, and how many
characters the literal consumed with its closing quote; or `none` and how many characters were
consumed before a newline or the end broke it (the newline counts). -/
def quoted (q : Char) : List Char → Option (List Char) × Nat
  | [] => (none, 0)
  | '\n' :: _ => (none, 1)
  | '\\' :: [] => (none, 1)
  | '\\' :: c :: r =>
    let (body, n) := quoted q r
    (body.map (fun b => '\\' :: c :: b), n + 2)
  | c :: r =>
    if c = q then (some [], 1)
    else
      let (body, n) := quoted q r
      (body.map (c :: ·), n + 1)

theorem quoted_le (q : Char) (cs : List Char) : (quoted q cs).2 ≤ cs.length := by
  induction cs using quoted.induct q with
  | case1 => simp only [quoted, List.length_nil, Nat.le_refl]
  | case2 t => simp only [quoted, List.length_cons]; omega
  | case3 => simp only [quoted, List.length_cons, List.length_nil, Nat.le_refl]
  | case4 c r body n hq ih =>
    rw [hq] at ih
    simp only [quoted, hq, List.length_cons]
    omega
  | case5 r h1 h2 h3 => simp only [quoted, List.length_cons, ite_true]; omega
  | case6 c r h1 h2 h3 hc body n hq ih =>
    rw [hq] at ih
    simp only [quoted, hq, hc, List.length_cons, ite_false]
    omega

/-- A run of string literals after the first opening quote: literals that only blanks separate
are joined. Gives the joined bodies and the characters consumed, or `none` and the characters
consumed when a literal is not closed. -/
def stringRun (cs : List Char) : Option (List Char) × Nat :=
  match hq : quoted '"' cs with
  | (none, n) => (none, n)
  | (some body, n) =>
    let after := cs.drop n
    let blanks := (after.takeWhile isBlank).length
    match hd : after.drop blanks with
    | '"' :: more =>
      have : more.length < cs.length := by
        have hn := quoted_le '"' cs
        rw [hq] at hn
        have hl : (after.drop blanks).length = cs.length - n - blanks := by
          simp [after]
          omega
        rw [hd] at hl
        simp at hl
        omega
      let (tail, m) := stringRun more
      (tail.map (body ++ ·), n + blanks + 1 + m)
    | _ => (some body, n)
termination_by cs.length

/-! ### One step -/

/-- One step of scanning from `c`: a token, or a comment, and the cursor after it, which has
fewer characters left; or the last token, an error or the end of input. -/
inductive Step (c : Cursor) where
  | token (t : Token) (next : Cursor) (shorter : next.rest.length < c.rest.length)
  | comment (next : Cursor) (shorter : next.rest.length < c.rest.length)
  | last (t : Token) (next : Cursor)

namespace Cursor

/-- Scans the token or comment after the blanks. -/
def step (c₀ : Cursor) : Step c₀ :=
  let c := c₀.skipBlanks
  have hc : c.rest.length ≤ c₀.rest.length := skipBlanks_rest_length_le c₀
  let p := c.pos
  match h : c.rest with
  | [] => .last ⟨.eof, p⟩ c
  | x :: xs =>
    if x = '#' ∧ c.lineStart then
      let body := lineBody xs
      .token ⟨.directive (String.ofList (dropBlankEnd (x :: body))), p⟩
        (c.advance (body.length + 1)) (advance_lt hc h (Nat.succ_pos _))
    else
      let c' : Cursor := { c with lineStart := false }
      have h' : c'.rest = x :: xs := h
      match x, xs with
      | '/', '*' :: ys =>
        match commentBody ys with
        | some body => .comment (c'.advance (body.length + 3 + 1)) (advance_lt hc h' (Nat.succ_pos _))
        | none => .last ⟨.error "unterminated comment", p⟩ (c'.advance c'.rest.length)
      | '/', '/' :: ys =>
        .comment (c'.advance ((ys.takeWhile (· != '\n')).length + 1 + 1))
          (advance_lt hc h' (Nat.succ_pos _))
      | x, xs =>
        if x.isAlpha || x == '_' then
          let w := xs.takeWhile isWordChar
          let text := String.ofList (x :: w)
          let kind := match Keyword.ofWord? text with
            | some k => .keyword k
            | none => .word text
          .token ⟨kind, p⟩ (c'.advance (w.length + 1)) (advance_lt hc h' (Nat.succ_pos _))
        else if x.isDigit || (x == '.' && startsWithDigit xs) then
          match numberTail x xs with
          | none => .last ⟨.error "malformed hexadecimal literal", p⟩ (c'.advance 2)
          | some tail =>
            let text := String.ofList (x :: tail)
            match xs.drop tail.length with
            | d :: _ =>
              if isWordChar d then
                .last ⟨.error ("invalid suffix `" ++ d.toString ++ "` on numeric literal `" ++
                  text ++ "`"), p⟩ (c'.advance (tail.length + 1))
              else
                .token ⟨.number text, p⟩ (c'.advance (tail.length + 1))
                  (advance_lt hc h' (Nat.succ_pos _))
            | [] =>
              .token ⟨.number text, p⟩ (c'.advance (tail.length + 1))
                (advance_lt hc h' (Nat.succ_pos _))
        else if x = '"' then
          match stringRun xs with
          | (some body, n) =>
            .token ⟨.string (String.ofList body), p⟩ (c'.advance (n + 1))
              (advance_lt hc h' (Nat.succ_pos _))
          | (none, n) => .last ⟨.error "unterminated string literal", p⟩ (c'.advance (n + 1))
        else if x = '\'' then
          match quoted '\'' xs with
          | (some [], n) => .last ⟨.error "empty character literal", p⟩ (c'.advance (n + 1))
          | (some body, n) =>
            .token ⟨.char (String.ofList body), p⟩ (c'.advance (n + 1))
              (advance_lt hc h' (Nat.succ_pos _))
          | (none, n) =>
            .last ⟨.error "unterminated character literal", p⟩ (c'.advance (n + 1))
        else
          match Symbol.ofPrefix? (x :: xs) with
          | some s =>
            .token ⟨.symbol s, p⟩ (c'.advance s.spelling.length)
              (advance_lt hc h' (Symbol.spelling_length_pos s))
          | none => .last ⟨.error ("unexpected character `" ++ x.toString ++ "`"), p⟩ c'

/-- The next token after blanks and comments, the cursor after it, and whether it was the last:
the end of input or an error. -/
def nextToken (c : Cursor) : Token × Cursor × Bool :=
  match c.step with
  | .token t next _ => (t, next, false)
  | .comment next _ => next.nextToken
  | .last t next => (t, next, true)
termination_by c.rest.length

/-- The tokens from `c` on: comments dropped, ending with one end-of-input token, which an error
token, if any, directly precedes. -/
def tokens (c : Cursor) : List Token :=
  match c.step with
  | .token t next _ => t :: next.tokens
  | .comment next _ => next.tokens
  | .last t next => if t.isEof then [t] else [t, ⟨.eof, next.pos⟩]
termination_by c.rest.length

end Cursor

/-- The tokens of a source text, comments dropped, ending with the end of input. -/
def tokenize (s : String) : List Token :=
  (Cursor.ofString s).tokens

end ModularC
