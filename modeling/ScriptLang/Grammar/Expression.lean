import ScriptLang.Grammar.Cursor
import ScriptLang.Grammar.Precedence
import ScriptLang.Number.Reading
import ScriptLang.Tree.Program

/-!
# Rules for expressions

Each rule reads one form of expression. The rules for its parts are parameters,
so that none refers to itself.
-/

namespace ScriptLang.Grammar

open ScriptLang.Parser

/-- `{ statements }` -/
def block (statements : Parser (List Stmt)) : Parser Block := do
  let start := (← expect .openCurly).span.start
  let body ← statements
  let _ ← expect .closeCurly
  return ⟨body, ← spanFrom start⟩

/-- A number that was read, or a fault at its token. -/
def numberOr {α : Type} (t : Token) (value : Option α) : Parser α :=
  match value with
  | some v => return v
  | none => fail (.numberParse t.text) t.span.start

/-- A literal or a name. -/
def primary : Parser Expr := do
  let t ← advance
  match t.kind with
  | .integer => return .integer (← numberOr t (Number.integer? t.text.toList)) t.span
  | .float => return .float (← numberOr t (Number.float? t.text.toList)) t.span
  | .string => return .string t.text t.span
  | .trueWord => return .boolean true t.span
  | .falseWord => return .boolean false t.span
  | .identifier => return .name t.text t.span
  | _ => fail (.unexpectedToken t.text) t.span.start

/-- An operator before an operand that binds at least as tightly as a step behind one. -/
def prefixed (expression : BindingPower → Parser Expr) (operator : UnaryOperator) :
    Parser Expr := do
  let t ← advance
  let operand ← expression .unary
  return .unary operator operand ⟨t.span.start, operand.span.stop⟩

/-- `(expression)` -/
def grouped (expression : BindingPower → Parser Expr) : Parser Expr := do
  let start := (← advance).span.start
  let inner ← expression .default
  let _ ← expect .closeParen
  return .group inner (← spanFrom start)

/-- `run { statements }` -/
def runBlock (statements : Parser (List Stmt)) : Parser Expr := do
  let start := (← advance).span.start
  let body ← block statements
  return .run body (← spanFrom start)

/-- What an expression begins with. -/
def operand (expression : BindingPower → Parser Expr) (statements : Parser (List Stmt)) :
    Parser Expr := do
  let kind := (← current).kind
  match kind with
  | .integer | .float | .string | .trueWord | .falseWord | .identifier => primary
  | .openParen => grouped expression
  | .runWord => runBlock statements
  | _ => match kind.prefixOperator? with
    | some operator => prefixed expression operator
    | none => unexpected

/-- A step behind its operand. -/
def stepped (step : Step) (left : Expr) : Parser Expr := do
  let t ← advance
  return .unary (.step step) left ⟨left.span.start, t.span.stop⟩

/-- The arguments of a call. Only a name can be called. -/
def called (arguments : Parser (List Expr)) (left : Expr) : Parser Expr := do
  match left with
  | .name callee span =>
    let _ ← advance
    let values ← arguments
    let _ ← expect .closeParen
    return .call callee values (← spanFrom span.start)
  | _ => fail (.unexpectedTokenDetailed "(" "only named functions can be called") (← position)

/-- The end of a range, behind `..`, `until` or `downTo`. -/
def ranged (expression : BindingPower → Parser Expr) (left : Expr) : Parser Expr := do
  let t ← advance
  let stop ← expression .range
  return .range left stop (t.kind == .untilWord) (t.kind == .downToWord) none
    ⟨left.span.start, stop.span.stop⟩

/-- The step of a range, which has at most one. -/
def rangeStep (expression : BindingPower → Parser Expr) (left : Expr) : Parser Expr := do
  let t ← advance
  match left with
  | .range start stop excludesStop descending none span =>
    let step ← expression .range
    return .range start stop excludesStop descending (some step) ⟨span.start, step.span.stop⟩
  | .range _ _ _ _ (some _) _ =>
    fail (.unexpectedTokenDetailed t.text "a range takes a single step") t.span.start
  | _ => fail (.unexpectedTokenDetailed t.text "step can only follow a range") t.span.start

/-- The right operand of a binary operator. -/
def combined (expression : BindingPower → Parser Expr) (operator : BinaryOperator)
    (left : Expr) : Parser Expr := do
  let _ ← advance
  let right ← expression operator.bindingPower
  return .binary operator left right ⟨left.span.start, right.span.stop⟩

/-- What extends an expression to the right. -/
def continuation (expression : BindingPower → Parser Expr) (arguments : Parser (List Expr))
    (left : Expr) : Parser Expr := do
  let kind := (← current).kind
  match kind with
  | .openParen => called arguments left
  | .dotDot | .untilWord | .downToWord => ranged expression left
  | .stepWord => rangeStep expression left
  | _ => match kind.postfixStep?, kind.binaryOperator? with
    | some step, _ => stepped step left
    | none, some operator => combined expression operator left
    | none, none => unexpected

end ScriptLang.Grammar
