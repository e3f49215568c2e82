import ScriptLang.Grammar.Expression

/-!
# Rules for statements

Each rule reads one form of statement, without the semicolons behind it.
-/

namespace ScriptLang.Grammar

open ScriptLang.Parser

/-- The name of a type. -/
def typeName : Parser DeclaredType := do
  let t ← expectNamed .identifier "expected a type name"
  match DeclaredType.ofName? t.text with
  | some type => return type
  | none => fail (.unknownType t.text) t.span.start

/-- A type behind a colon, if there is one. -/
def annotation : Parser (Option DeclaredType) := do
  if ← eat .colon then return some (← typeName) else return none

/-- `var` or `val`, with a type, a value or both. -/
def declaration (expression : Parser Expr) : Parser Stmt := do
  let first ← advance
  let name ← expectNamed .identifier "expected identifier during variable declaration"
  let type ← annotation
  let value ← if ← eat .assignment then some <$> expression else pure none
  if type.isNone && value.isNone then
    fail .expectedExplicitValue first.span.start
  return .declare name.text (first.kind == .valWord) type value (← spanFrom first.span.start)

/-- A statement that begins with a name: an assignment, a step or an expression. -/
def named (expression : Parser Expr) : Parser Stmt := do
  let second := ((← get).peek 1).kind
  match second.assignOperator?, second.postfixStep? with
  | some operator, _ =>
    let target ← advance
    let _ ← advance
    let value ← expression
    return .assign target.text operator (some value) (← spanFrom target.span.start)
  | none, some step =>
    let target ← advance
    let _ ← advance
    return .assign target.text (.step step) none (← spanFrom target.span.start)
  | none, none => return .expression (← expression)

/-- A statement that begins with a step: it steps a name, or is an expression. -/
def steppedFirst (expression : Parser Expr) (step : Step) : Parser Stmt := do
  if ((← get).peek 1).kind = .identifier then
    let first ← advance
    let target ← advance
    return .assign target.text (.step step) none (← spanFrom first.span.start)
  else
    return .expression (← expression)

/-- `print(value)` or `println(value)`, the value optional. -/
def printing (expression : Parser Expr) : Parser Stmt := do
  let first ← advance
  let _ ← expect .openParen
  let value ← if (← current).kind = .closeParen then pure none else some <$> expression
  let _ ← expect .closeParen
  return .print value (first.kind == .printlnWord) (← spanFrom first.span.start)

/-- `(condition)` -/
def condition (expression : Parser Expr) : Parser Expr := do
  let _ ← expect .openParen
  let value ← expression
  let _ ← expect .closeParen
  return value

/-- `if (condition) statement`, with `else statement` if it follows. -/
def branching (expression : Parser Expr) (statement : Parser Stmt) : Parser Stmt := do
  let start := (← advance).span.start
  let test ← condition expression
  let thenBody ← statement
  let elseBody ← if ← eat .elseWord then some <$> statement else pure none
  return .branch test thenBody elseBody (← spanFrom start)

/-- `while (condition) statement` -/
def whileLoop (expression : Parser Expr) (statement : Parser Stmt) : Parser Stmt := do
  let start := (← advance).span.start
  let test ← condition expression
  let body ← statement
  return .whileLoop test body (← spanFrom start)

/-- `do statement while (condition)` -/
def doWhile (expression : Parser Expr) (statement : Parser Stmt) : Parser Stmt := do
  let start := (← advance).span.start
  let body ← statement
  let _ ← expect .whileWord
  let test ← condition expression
  return .doWhile body test (← spanFrom start)

/-- `for (name in range) statement`, where only parentheses may stand around the range. -/
def forLoop (expression : Parser Expr) (statement : Parser Stmt) : Parser Stmt := do
  let start := (← advance).span.start
  let _ ← expect .openParen
  let counter ← expect .identifier
  let _ ← expect .inWord
  let range ← expression
  let _ ← expect .closeParen
  unless range.ungroup.isRange do
    fail .expectedRange range.span.start
  let body ← statement
  return .forLoop counter.text range body (← spanFrom start)

/-- `name: Type` -/
def parameter : Parser Parameter := do
  let name ← expect .identifier
  let _ ← expect .colon
  return ⟨name.text, ← typeName⟩

/-- The rule `item` repeated, with commas between and at most one behind, up to
a closing parenthesis. -/
def separated {α : Type} (item : Parser α) (others : Parser (List α)) : Parser (List α) := do
  if (← current).kind = .closeParen then return []
  else
    let first ← item
    if ← eat .comma then return first :: (← others) else return [first]

/-- `fun name(parameters): Type { statements }`, the type `Unit` if none is written. -/
def function (parameters : Parser (List Parameter)) (statements : Parser (List Stmt)) :
    Parser Stmt := do
  let start := (← advance).span.start
  let name ← expect .identifier
  let _ ← expect .openParen
  let ps ← parameters
  let _ ← expect .closeParen
  let returns ← annotation
  let body ← block statements
  return .function ⟨name.text, ps, returns.getD .unit, body, ← spanFrom start⟩

/-- `return`, with a value if the next token can begin one. -/
def returning (expression : Parser Expr) : Parser Stmt := do
  let start := (← advance).span.start
  let value ← if (← current).kind.beginsOperand then some <$> expression else pure none
  return .return value (← spanFrom start)

/-- A statement of any form. -/
def anyStatement (expression : Parser Expr) (statement : Parser Stmt)
    (statements : Parser (List Stmt)) (parameters : Parser (List Parameter)) :
    Parser Stmt := do
  match (← current).kind with
  | .varWord | .valWord => declaration expression
  | .funWord => function parameters statements
  | .ifWord => branching expression statement
  | .whileWord => whileLoop expression statement
  | .doWord => doWhile expression statement
  | .forWord => forLoop expression statement
  | .returnWord => returning expression
  | .breakWord => return .break (← advance).span
  | .continueWord => return .continue (← advance).span
  | .printWord | .printlnWord => printing expression
  | .openCurly => return .block (← block statements)
  | .identifier => named expression
  | .plusPlus => steppedFirst expression .preIncrement
  | .minusMinus => steppedFirst expression .preDecrement
  | _ => return .expression (← expression)

end ScriptLang.Grammar
