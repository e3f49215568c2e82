import ScriptLang.Halt
import ScriptLang.Token

/-!
# A place in a list of tokens

A cursor stands before the tokens that are still to be read. Behind the last of
them it stands before the end of the file, which is never consumed; a list that
does not end so is taken to end where its last token does.
-/

namespace ScriptLang

structure Cursor where
  /-- The end of the token consumed last. -/
  lastEnd : Position
  pending : List Token
  endText : String
  endSpan : Span

namespace Cursor

def ofTokens (tokens : List Token) (file : String) : Cursor :=
  let start := Position.origin file
  match tokens.getLast? with
  | none => ⟨start, [], "EOF", ⟨start, start⟩⟩
  | some t =>
    if t.kind = .eof then ⟨start, tokens.dropLast, t.text, t.span⟩
    else ⟨start, tokens, "EOF", ⟨t.span.stop, t.span.stop⟩⟩

/-- The token `n` places ahead. -/
def peek (c : Cursor) (n : Nat) : Token := c.pending.getD n ⟨.eof, c.endText, c.endSpan⟩

def current (c : Cursor) : Token := c.peek 0

def position (c : Cursor) : Position := c.current.span.start

def hasTokens (c : Cursor) : Bool := c.current.kind != .eof

/-- Behind the current token, unless that is the end of the file. -/
def next (c : Cursor) : Cursor :=
  match c.pending with
  | [] => c
  | t :: ts => { c with lastEnd := t.span.stop, pending := ts }

/-- From `start` to the end of the token consumed last. -/
def spanFrom (c : Cursor) (start : Position) : Span := ⟨start, c.lastEnd⟩

/-- Enough fuel for any rule: each token is worth three nested rules at most. -/
def fuel (c : Cursor) : Nat := 3 * c.pending.length + 3

end Cursor

/-- A rule moves a cursor. A failed rule leaves it where the fault was met. -/
abbrev Parser := EStateM Halt Cursor

namespace Parser

def current : Parser Token := return (← get).current

def position : Parser Position := return (← get).position

/-- Consumes the current token. -/
def advance : Parser Token := do
  let c ← get
  set c.next
  return c.current

def fail {α : Type} (cause : Cause) (position : Position) : Parser α :=
  throw (.fault ⟨cause, position⟩)

def outOfFuel {α : Type} : Parser α := throw .outOfFuel

/-- The current token is not expected here at all. -/
def unexpected {α : Type} : Parser α := do
  let t ← current
  fail (.unexpectedToken t.text) t.span.start

/-- Consumes the current token if it has the given kind. -/
def eat (kind : TokenKind) : Parser Bool := do
  if (← current).kind = kind then
    let _ ← advance
    return true
  else
    return false

/-- Consumes a token of the given kind, which is called `expectation` if it is missing. -/
def expectNamed (kind : TokenKind) (expectation : String) : Parser Token := do
  let t ← current
  if t.kind = kind then advance
  else fail (.unexpectedTokenDetailed t.text expectation) t.span.start

def expect (kind : TokenKind) : Parser Token := expectNamed kind s!"expected {kind.name}"

def spanFrom (start : Position) : Parser Span := return (← get).spanFrom start

end Parser

end ScriptLang
