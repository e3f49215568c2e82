import ScriptLang.Source.Position

/-!
# Tokens

The kinds of tokens, the reserved words, and tokens with their source span.
-/

namespace ScriptLang

inductive TokenKind where
  | eof | integer | float | string | identifier
  | openCurly | closeCurly | openParen | closeParen
  | assignment | equals | not | notEquals
  | less | lessEquals | greater | greaterEquals
  | or | and
  | dotDot | semicolon | colon | comma
  | plusPlus | minusMinus | plusEquals | minusEquals | starEquals | slashEquals | percentEquals
  | plus | dash | slash | star | percent
  | varWord | valWord | funWord | returnWord | ifWord | elseWord
  | whileWord | doWord | forWord | inWord | untilWord | downToWord
  | stepWord | breakWord | continueWord | trueWord | falseWord | printWord
  | printlnWord | runWord
  deriving DecidableEq, Inhabited

namespace TokenKind

def name : TokenKind → String
  | .eof => "EOF"
  | .integer => "Integer"
  | .float => "Float"
  | .string => "String"
  | .identifier => "Identifier"
  | .openCurly => "OpenCurly"
  | .closeCurly => "CloseCurly"
  | .openParen => "OpenParen"
  | .closeParen => "CloseParen"
  | .assignment => "Assignment"
  | .equals => "Equals"
  | .not => "Not"
  | .notEquals => "NotEquals"
  | .less => "Less"
  | .lessEquals => "LessEquals"
  | .greater => "Greater"
  | .greaterEquals => "GreaterEquals"
  | .or => "Or"
  | .and => "And"
  | .dotDot => "DotDot"
  | .semicolon => "Semicolon"
  | .colon => "Colon"
  | .comma => "Comma"
  | .plusPlus => "PlusPlus"
  | .minusMinus => "MinusMinus"
  | .plusEquals => "PlusEquals"
  | .minusEquals => "MinusEquals"
  | .starEquals => "StarEquals"
  | .slashEquals => "SlashEquals"
  | .percentEquals => "PercentEquals"
  | .plus => "Plus"
  | .dash => "Dash"
  | .slash => "Slash"
  | .star => "Star"
  | .percent => "Percent"
  | .varWord => "Var"
  | .valWord => "Val"
  | .funWord => "Fun"
  | .returnWord => "Return"
  | .ifWord => "If"
  | .elseWord => "Else"
  | .whileWord => "While"
  | .doWord => "Do"
  | .forWord => "For"
  | .inWord => "In"
  | .untilWord => "Until"
  | .downToWord => "DownTo"
  | .stepWord => "Step"
  | .breakWord => "Break"
  | .continueWord => "Continue"
  | .trueWord => "True"
  | .falseWord => "False"
  | .printWord => "Print"
  | .printlnWord => "Println"
  | .runWord => "Run"

/-- Every kind once. -/
def all : List TokenKind := [
  .eof, .integer, .float, .string, .identifier, .openCurly, .closeCurly, .openParen,
  .closeParen, .assignment, .equals, .not, .notEquals, .less, .lessEquals, .greater,
  .greaterEquals, .or, .and, .dotDot, .semicolon, .colon, .comma, .plusPlus, .minusMinus,
  .plusEquals, .minusEquals, .starEquals, .slashEquals, .percentEquals, .plus, .dash, .slash,
  .star, .percent, .varWord, .valWord, .funWord, .returnWord, .ifWord, .elseWord, .whileWord,
  .doWord, .forWord, .inWord, .untilWord, .downToWord, .stepWord, .breakWord, .continueWord,
  .trueWord, .falseWord, .printWord, .printlnWord, .runWord]

/-- The kind of a given name. -/
def ofName? (s : String) : Option TokenKind := all.find? (·.name == s)

/-- The reserved words and their kinds. -/
def reserved : List (String × TokenKind) := [
  ("var", .varWord), ("val", .valWord), ("fun", .funWord), ("return", .returnWord),
  ("if", .ifWord), ("else", .elseWord), ("while", .whileWord), ("do", .doWord),
  ("for", .forWord), ("in", .inWord), ("until", .untilWord), ("downTo", .downToWord),
  ("step", .stepWord), ("break", .breakWord), ("continue", .continueWord), ("true", .trueWord),
  ("false", .falseWord), ("print", .printWord), ("println", .printlnWord), ("run", .runWord)]

/-- The kind of a word: its own if it is reserved, else an identifier. -/
def ofWord (w : String) : TokenKind := (reserved.lookup w).getD .identifier

/-- Kinds of which two tokens may differ in text. -/
def carriesText : TokenKind → Bool
  | .string | .identifier | .integer | .float => true
  | _ => false

end TokenKind

/-- `text` is the token's literal value: the digits of a number without a type
suffix, the decoded characters of a string, and the spelling of all else. -/
structure Token where
  kind : TokenKind
  text : String
  span : Span
  deriving DecidableEq, Inhabited

/-- The token as a listing of tokens shows it. -/
def Token.describe (t : Token) : String :=
  if t.kind.carriesText then s!"{t.kind.name} ({t.text})" else t.kind.name

end ScriptLang
