import ScriptLang.Fault
import ScriptLang.Text.Blank
import ScriptLang.Token

/-!
# From text to tokens

A lexeme is what the first of the patterns, taken in order, matches at a place.
Longer operators stand before the operators they begin with, and comments before
the operators `/` and `/=`. White space and comments give no token.
-/

namespace ScriptLang

namespace Lexeme

inductive Pattern where
  | blank
  | lineComment
  | blockComment
  | word
  | number
  | text
  | sign (spelling : List Char) (kind : TokenKind)

def startsWord (c : Char) : Bool := c.isAlpha || c = '_'

def continuesWord (c : Char) : Bool := c.isAlphanum || c = '_'

/-- Characters up to and with the first `*/`. -/
def commentEnd? : List Char → Option Nat
  | '*' :: '/' :: _ => some 2
  | _ :: cs => (commentEnd? cs).map (· + 1)
  | [] => none

/-- Characters up to and with the quote that closes a string. A backslash takes
the next character with it, which must not be a newline. -/
def quoteEnd? : List Char → Option Nat
  | '"' :: _ => some 1
  | '\\' :: c :: cs => if c = '\n' then none else (quoteEnd? cs).map (· + 2)
  | '\\' :: [] => none
  | _ :: cs => (quoteEnd? cs).map (· + 1)
  | [] => none

/-- The number of characters at the front that `p` accepts. -/
def run (p : Char → Bool) (cs : List Char) : Nat := (cs.takeWhile p).length

/-- A point and the digits behind it. -/
def fractionLength : List Char → Nat
  | '.' :: cs => if run Char.isDigit cs = 0 then 0 else 1 + run Char.isDigit cs
  | _ => 0

def suffixLength : List Char → Nat
  | 'f' :: _ | 'F' :: _ => 1
  | _ => 0

/-- Digits, perhaps a fraction, perhaps a type suffix. -/
def numberLength (cs : List Char) : Nat :=
  let whole := run Char.isDigit cs
  let fraction := fractionLength (cs.drop whole)
  whole + fraction + suffixLength (cs.drop (whole + fraction))

namespace Pattern

/-- How many characters of the text a pattern matches at its front. -/
def length? : Pattern → List Char → Option Nat
  | .blank, cs => if run Text.isBlank cs = 0 then none else some (run Text.isBlank cs)
  | .lineComment, '/' :: '/' :: cs => some (2 + run (· ≠ '\n') cs)
  | .blockComment, '/' :: '*' :: cs => (commentEnd? cs).map (2 + ·)
  | .word, c :: cs => if startsWord c then some (1 + run continuesWord cs) else none
  | .number, cs => if run Char.isDigit cs = 0 then none else some (numberLength cs)
  | .text, '"' :: cs => (quoteEnd? cs).map (1 + ·)
  | .sign s _, cs => if s.isPrefixOf cs then some s.length else none
  | _, _ => none

/-- The patterns in the order they are tried. -/
def all : List Pattern := [
  .blank, .lineComment, .blockComment, .word, .number, .text,
  .sign ['{'] .openCurly,
  .sign ['}'] .closeCurly,
  .sign ['('] .openParen,
  .sign [')'] .closeParen,
  .sign ['=', '='] .equals,
  .sign ['!', '='] .notEquals,
  .sign ['!'] .not,
  .sign ['='] .assignment,
  .sign ['<', '='] .lessEquals,
  .sign ['<'] .less,
  .sign ['>', '='] .greaterEquals,
  .sign ['>'] .greater,
  .sign ['|', '|'] .or,
  .sign ['&', '&'] .and,
  .sign ['.', '.'] .dotDot,
  .sign [';'] .semicolon,
  .sign [':'] .colon,
  .sign [','] .comma,
  .sign ['+', '+'] .plusPlus,
  .sign ['-', '-'] .minusMinus,
  .sign ['+', '='] .plusEquals,
  .sign ['-', '='] .minusEquals,
  .sign ['*', '='] .starEquals,
  .sign ['/', '='] .slashEquals,
  .sign ['%', '='] .percentEquals,
  .sign ['+'] .plus,
  .sign ['-'] .dash,
  .sign ['/'] .slash,
  .sign ['*'] .star,
  .sign ['%'] .percent]

end Pattern

/-- The first pattern that matches, and the length of its match. -/
def first? (cs : List Char) : Option (Pattern × Nat) :=
  Pattern.all.findSome? fun p => (p.length? cs).map (p, ·)

/-- What a character means behind a backslash. -/
def escaped? : Char → Option Char
  | 'n' => some '\n'
  | 't' => some '\t'
  | 'r' => some '\r'
  | '\\' => some '\\'
  | '"' => some '"'
  | '$' => some '$'
  | '0' => some '\x00'
  | _ => none

/-- Decodes the escapes between the quotes; an unknown one stands for itself. -/
def unescape : List Char → List Char
  | '\\' :: c :: cs =>
    match escaped? c with
    | some d => d :: unescape cs
    | none => '\\' :: c :: unescape cs
  | c :: cs => c :: unescape cs
  | [] => []

/-- The kind and value of a number: a suffix makes it a Float and is dropped, so
does a point, which stays. -/
def numberValue (cs : List Char) : TokenKind × List Char :=
  match cs.getLast? with
  | some 'f' | some 'F' => (.float, cs.dropLast)
  | _ => if cs.contains '.' then (.float, cs) else (.integer, cs)

/-- The kind and value of a lexeme; none for what separates tokens. -/
def value? : Pattern → List Char → Option (TokenKind × List Char)
  | .blank, _ | .lineComment, _ | .blockComment, _ => none
  | .word, cs => some (TokenKind.ofWord (String.ofList cs), cs)
  | .number, cs => some (numberValue cs)
  | .text, cs => some (.string, unescape cs.tail.dropLast)
  | .sign s k, _ => some (k, s)

end Lexeme

namespace Token

/-- The tokens of a text that stands at byte `offset` of a source. -/
def scan (file : String) (cs : List Char) (offset : Nat) : Except Fault (List Token) :=
  match cs with
  | [] => .ok [⟨.eof, "EOF", ⟨⟨offset, file⟩, ⟨offset, file⟩⟩⟩]
  | c :: rest =>
    match Lexeme.first? (c :: rest) with
    | none => .error ⟨.unrecognisedToken c.toString, ⟨offset, file⟩⟩
    | some (pattern, length) =>
      let lexeme := c :: rest.take (length - 1)
      let stop := offset + byteLength lexeme
      match scan file (rest.drop (length - 1)) stop with
      | .error f => .error f
      | .ok tokens =>
        match Lexeme.value? pattern lexeme with
        | none => .ok tokens
        | some (kind, value) =>
          .ok (⟨kind, String.ofList value, ⟨⟨offset, file⟩, ⟨stop, file⟩⟩⟩ :: tokens)
termination_by cs.length

/-- The tokens of a source, the last of them the end of the file. -/
def ofSource (source file : String) : Except Fault (List Token) := scan file source.toList 0

end Token

end ScriptLang
