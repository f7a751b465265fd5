import Curried.Fault
import Curried.Text.Blank
import Curried.Text.Literal

/-!
# Token — lexer

Characters are collected into a lexeme until a blank or a parenthesis ends it.  Between double
quotes a blank does not end the lexeme; a parenthesis always does.  A lexeme is a form, a number, a
text literal, nil or, if it has no double quote, a name; otherwise it is unreadable, and lexing
stops there with the tokens found so far.
-/

namespace Curried

namespace Token

/-- The kind and value of a lexeme that is not empty. -/
def classify? (lexeme : List Char) : Option (Kind × Tree) :=
  let text := String.ofList lexeme
  match Form.ofSpelling? text with
  | some form => some (.keyword, .form form)
  | none =>
    match Number.read? lexeme with
    | some n => some (.literal, .num n)
    | none =>
      match Text.unquote? lexeme with
      | some body => some (.literal, .text (String.ofList body))
      | none =>
        if text = "Φ" ∨ text = "nil" then some (.literal, .nil)
        else if lexeme.contains '"' then none
        else some (.identifier, .text text)

/-- The token of a lexeme that starts at `position`; an empty lexeme is no token. -/
def ofLexeme (lexeme : List Char) (position : Position) : Except Fault (Option Token) :=
  if lexeme = [] then .ok none
  else match classify? lexeme with
    | some (kind, value) => .ok (some ⟨kind, value, position⟩)
    | none => .error (.unreadable (String.ofList lexeme) position)

end Token

/-- What lexing yields: tokens, and the fault that stopped it, if one did. -/
structure Lexed where
  tokens : List Token
  fault? : Option Fault

/-- The tokens, or the fault. -/
def Lexed.result (l : Lexed) : Except Fault (List Token) :=
  match l.fault? with
  | some f => .error f
  | none => .ok l.tokens

/-- The state of the lexer between two characters. -/
structure Scan where
  /-- The characters of the lexeme so far, the latest first. -/
  buffer : List Char
  /-- Where the lexeme started. -/
  start : Position
  /-- Where the next character stands. -/
  position : Position
  /-- Whether a text literal is open. -/
  inText : Bool
  /-- Whether a backslash has taken the next character. -/
  escaped : Bool

namespace Scan

/-- No lexeme begun, at a position. -/
def fresh (position : Position) : Scan := ⟨[], position, position, false, false⟩

/-- Adds a character to the lexeme. -/
def push (s : Scan) (c : Char) : Scan :=
  let inText := if c = '"' ∧ !s.escaped then !s.inText else s.inText
  { buffer := c :: s.buffer
    start := if s.buffer = [] then s.position else s.start
    position := s.position.next c
    inText := inText
    escaped := inText && c == '\\' && !s.escaped }

/-- Ends the lexeme: the token it is, if it is not empty. -/
def flush (s : Scan) : Except Fault (List Token) :=
  (Token.ofLexeme s.buffer.reverse s.start).map Option.toList

/-- The token of a parenthesis, if `c` is one. -/
def parenthesis? (s : Scan) (c : Char) : Option Token :=
  if c = '(' then some ⟨.opening, .text "(", s.position⟩
  else if c = ')' then some ⟨.closing, .text ")", s.position⟩
  else none

/-- Lexes the remaining characters. -/
def run : Scan → List Char → Lexed
  | s, [] => match s.flush with
    | .error f => ⟨[], some f⟩
    | .ok tokens => ⟨tokens, none⟩
  | s, c :: cs =>
    let paren? := s.parenthesis? c
    if paren?.isSome || (Text.isBlank c && !s.inText) then
      match s.flush with
      | .error f => ⟨[], some f⟩
      | .ok tokens =>
        let rest := run (fresh (s.position.next c)) cs
        ⟨tokens ++ paren?.toList ++ rest.tokens, rest.fault?⟩
    else run (s.push c) cs

end Scan

/-- Lexes a source text. -/
def lex (source : String) : Lexed := (Scan.fresh .first).run source.toList

end Curried
