/-!
Tokens of the module dialect of C.
-/

namespace ModularC

/-- A place in source text. Lines and columns count from one, and columns count characters. -/
structure Position where
  line : Nat
  column : Nat
deriving DecidableEq, Repr, Inhabited

namespace Position

/-- The first character of a text. -/
def start : Position := ⟨1, 1⟩

/-- The place after the character `c`: a newline starts the next line, anything else is one column. -/
def step (p : Position) (c : Char) : Position :=
  if c = '\n' then ⟨p.line + 1, 1⟩ else ⟨p.line, p.column + 1⟩

/-- `line:column`. -/
def render (p : Position) : String :=
  toString p.line ++ ":" ++ toString p.column

end Position

/-- The reserved words: those of C that the dialect keeps, and `defer`, `import` and `pub`.
A trailing underscore marks a word that Lean reserves for itself. -/
inductive Keyword where
  | auto | break_ | case | char | const | continue_ | default | defer | do_ | double | else_
  | enum | extern_ | float | for_ | if_ | import_ | inline | int | long | pub | register
  | restrict | return_ | short | signed | sizeof | static | struct | switch | typedef | union
  | unsigned | void | volatile | while_
deriving DecidableEq, Repr, Inhabited

namespace Keyword

/-- How the keyword is written. -/
def spelling : Keyword → String
  | .auto => "auto" | .break_ => "break" | .case => "case" | .char => "char"
  | .const => "const" | .continue_ => "continue" | .default => "default" | .defer => "defer"
  | .do_ => "do" | .double => "double" | .else_ => "else" | .enum => "enum"
  | .extern_ => "extern" | .float => "float" | .for_ => "for" | .if_ => "if"
  | .import_ => "import" | .inline => "inline" | .int => "int" | .long => "long"
  | .pub => "pub" | .register => "register" | .restrict => "restrict" | .return_ => "return"
  | .short => "short" | .signed => "signed" | .sizeof => "sizeof" | .static => "static"
  | .struct => "struct" | .switch => "switch" | .typedef => "typedef" | .union => "union"
  | .unsigned => "unsigned" | .void => "void" | .volatile => "volatile" | .while_ => "while"

/-- Every keyword, in alphabetical order of spelling. -/
def all : List Keyword :=
  [.auto, .break_, .case, .char, .const, .continue_, .default, .defer, .do_, .double, .else_,
    .enum, .extern_, .float, .for_, .if_, .import_, .inline, .int, .long, .pub, .register,
    .restrict, .return_, .short, .signed, .sizeof, .static, .struct, .switch, .typedef, .union,
    .unsigned, .void, .volatile, .while_]

/-- The keyword spelled `w`, if any. -/
def ofWord? (w : String) : Option Keyword :=
  all.find? (·.spelling == w)

/-- Keywords that name a type by themselves. -/
def isBaseType : Keyword → Bool
  | .void | .char | .short | .int | .long | .float | .double | .signed | .unsigned => true
  | _ => false

/-- Qualifiers and storage classes, which may stand beside a type. -/
def isModifier : Keyword → Bool
  | .const | .volatile | .static | .extern_ | .inline | .register | .auto | .restrict => true
  | _ => false

/-- `struct`, `union` and `enum`. -/
def isRecord : Keyword → Bool
  | .struct | .union | .enum => true
  | _ => false

/-- Keywords that can begin a type. -/
def startsType (k : Keyword) : Bool :=
  k.isBaseType || k.isModifier || k.isRecord

end Keyword

/-- Punctuation and operators. -/
inductive Symbol where
  | ellipsis | shlAssign | shrAssign
  | arrow | plusPlus | minusMinus | shl | shr | le | ge | eqEq | notEq | andAnd | orOr
  | plusAssign | minusAssign | starAssign | slashAssign | percentAssign | ampAssign
  | caretAssign | pipeAssign
  | plus | minus | star | slash | percent | lt | gt | assign | bang | tilde | amp | pipe | caret
  | question | colon | semicolon | comma | dot | lParen | rParen | lBracket | rBracket
  | lBrace | rBrace
deriving DecidableEq, Repr, Inhabited

namespace Symbol

/-- How the symbol is written. -/
def spelling : Symbol → String
  | .ellipsis => "..." | .shlAssign => "<<=" | .shrAssign => ">>="
  | .arrow => "->" | .plusPlus => "++" | .minusMinus => "--" | .shl => "<<" | .shr => ">>"
  | .le => "<=" | .ge => ">=" | .eqEq => "==" | .notEq => "!=" | .andAnd => "&&"
  | .orOr => "||" | .plusAssign => "+=" | .minusAssign => "-=" | .starAssign => "*="
  | .slashAssign => "/=" | .percentAssign => "%=" | .ampAssign => "&=" | .caretAssign => "^="
  | .pipeAssign => "|="
  | .plus => "+" | .minus => "-" | .star => "*" | .slash => "/" | .percent => "%"
  | .lt => "<" | .gt => ">" | .assign => "=" | .bang => "!" | .tilde => "~" | .amp => "&"
  | .pipe => "|" | .caret => "^" | .question => "?" | .colon => ":" | .semicolon => ";"
  | .comma => "," | .dot => "." | .lParen => "(" | .rParen => ")" | .lBracket => "["
  | .rBracket => "]" | .lBrace => "\x7b" | .rBrace => "\x7d"

/-- The symbol that begins `cs`, taking the longest spelling that fits. -/
def ofPrefix? : List Char → Option Symbol
  | '.' :: '.' :: '.' :: _ => some .ellipsis
  | '<' :: '<' :: '=' :: _ => some .shlAssign
  | '>' :: '>' :: '=' :: _ => some .shrAssign
  | '-' :: '>' :: _ => some .arrow
  | '+' :: '+' :: _ => some .plusPlus
  | '-' :: '-' :: _ => some .minusMinus
  | '<' :: '<' :: _ => some .shl
  | '>' :: '>' :: _ => some .shr
  | '<' :: '=' :: _ => some .le
  | '>' :: '=' :: _ => some .ge
  | '=' :: '=' :: _ => some .eqEq
  | '!' :: '=' :: _ => some .notEq
  | '&' :: '&' :: _ => some .andAnd
  | '|' :: '|' :: _ => some .orOr
  | '+' :: '=' :: _ => some .plusAssign
  | '-' :: '=' :: _ => some .minusAssign
  | '*' :: '=' :: _ => some .starAssign
  | '/' :: '=' :: _ => some .slashAssign
  | '%' :: '=' :: _ => some .percentAssign
  | '&' :: '=' :: _ => some .ampAssign
  | '^' :: '=' :: _ => some .caretAssign
  | '|' :: '=' :: _ => some .pipeAssign
  | '+' :: _ => some .plus
  | '-' :: _ => some .minus
  | '*' :: _ => some .star
  | '/' :: _ => some .slash
  | '%' :: _ => some .percent
  | '<' :: _ => some .lt
  | '>' :: _ => some .gt
  | '=' :: _ => some .assign
  | '!' :: _ => some .bang
  | '~' :: _ => some .tilde
  | '&' :: _ => some .amp
  | '|' :: _ => some .pipe
  | '^' :: _ => some .caret
  | '?' :: _ => some .question
  | ':' :: _ => some .colon
  | ';' :: _ => some .semicolon
  | ',' :: _ => some .comma
  | '.' :: _ => some .dot
  | '(' :: _ => some .lParen
  | ')' :: _ => some .rParen
  | '[' :: _ => some .lBracket
  | ']' :: _ => some .rBracket
  | '{' :: _ => some .lBrace
  | '}' :: _ => some .rBrace
  | _ => none

theorem spelling_length_pos (s : Symbol) : 0 < s.spelling.length := by
  cases s <;> decide

end Symbol

/-- What a token is, with the text it carries. -/
inductive TokenKind where
  | keyword (k : Keyword)
  | symbol (s : Symbol)
  | word (text : String)
  | number (text : String)
  /-- The contents between the quotes, escapes as written; adjacent literals are already joined. -/
  | string (text : String)
  | char (text : String)
  /-- A whole preprocessor line, from its `#`. -/
  | directive (line : String)
  | error (message : String)
  | eof
deriving DecidableEq, Repr, Inhabited

/-- A token and the place where it starts. -/
structure Token where
  kind : TokenKind
  pos : Position
deriving DecidableEq, Repr, Inhabited

namespace Token

def isKeyword (t : Token) (k : Keyword) : Bool := t.kind == .keyword k

def isSymbol (t : Token) (s : Symbol) : Bool := t.kind == .symbol s

def isEof (t : Token) : Bool := t.kind == .eof

/-- The text of a word token. -/
def word? (t : Token) : Option String :=
  match t.kind with
  | .word w => some w
  | _ => none

/-- How an error message names the token. -/
def describe (t : Token) : String :=
  match t.kind with
  | .keyword k => "keyword `" ++ k.spelling ++ "`"
  | .symbol s => "`" ++ s.spelling ++ "`"
  | .word w => "word `" ++ w ++ "`"
  | .number n => "number `" ++ n ++ "`"
  | .string _ => "string literal"
  | .char _ => "char literal"
  | .directive m => "macro line `" ++ m ++ "`"
  | .error e => "invalid input (" ++ e ++ ")"
  | .eof => "end of input"

/-- The token as it reads in the source, quotes included; empty for the end of input. -/
def spelling (t : Token) : String :=
  match t.kind with
  | .keyword k => k.spelling
  | .symbol s => s.spelling
  | .word w | .number w | .directive w => w
  | .string s => "\"" ++ s ++ "\""
  | .char s => "'" ++ s ++ "'"
  | .error e => "<error: " ++ e ++ ">"
  | .eof => ""

end Token

end ModularC
