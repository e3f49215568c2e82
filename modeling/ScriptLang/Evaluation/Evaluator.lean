import ScriptLang.Evaluation.Loop

/-!
# Evaluation of expressions and statements

Evaluation follows the tree. What it cannot follow is a parameter: calls, whose
bodies stand elsewhere, and the number of laps a loop may take. A fault stops it;
all other problems are reported, and a zero value takes the place of the result.
-/

namespace ScriptLang

/-- How calls are made: function, arguments, position. -/
abbrev Invocation := String → List Value → Position → Eval Value

namespace Eval

/-- Declares a variable with an initial value or none. A range keeps its bounds
where no type is written. -/
def declare (name : String) (constant : Bool) (type : Option DeclaredType)
    (value : Option Value) (position : Position) : Eval Unit := do
  let chosen := match type, value with
    | some t, _ => t
    | none, some v => v.type.declaredType
    | none, none => .int
  let initial ← match value, type with
    | some (.range a b), none => pure (.range a b)
    | some v, _ => coerce v chosen position
    | none, _ => pure (.zero chosen)
  modifyEnvironment fun e => e.declare name initial chosen !constant

/-- Assigns to a variable. A `val` refuses before any operator runs; a step leaves
what is no number. -/
def assign (target : String) (operator : AssignOperator) (value : Option Value)
    (position : Position) : Eval Unit := do
  match (← get).environment.find? target with
  | none => report (.variableNotDeclared target) position
  | some b =>
    if !b.mutable && !operator.isStep then report (.valReassignment target) position
    else
      let operand := value.getD (.integer 0)
      match operator with
      | .step step =>
        match step.apply? b.value with
        | some v => store target v position
        | none => return
      | .set => store target (← coerce operand b.type position) position
      | .combine o =>
        let v ← settle position (o.apply b.value operand)
        store target (← coerce v b.type position) position

/-- Steps the variable `name`, if there is one that reads as `old`, and gives the
value the step has as an expression. -/
def stepNamed (step : Step) (name : Option String) (old : Value) (position : Position) :
    Eval Value := do
  match name, step.apply? old with
  | some n, some new =>
    store n new position
    return if step.isBefore then new else old
  | _, _ => return old

/-- The step of a loop, which must be positive. -/
def checkStep (step : Int64) (position : Position) : Eval Unit := do
  if step = 0 then fail .zeroStep position
  if step < 0 then fail (.negativeStep step) position

/-- Whether a `for` uses the variable that is there: one of the running call or a
global, if it can hold the counter. -/
def reusesCounter (s : Evaluation) (counter : String) : Bool :=
  match s.environment.locate? counter with
  | some (index, b) => (index = 0 || s.frameBase ≤ index) && b.mutable && b.type = .int
  | none => false

/-- Runs a `for`, with a counter of its own if there is none to use. -/
def runFor (range : LoopRange) (counter : String) (body : Eval Unit) : Eval Unit := do
  let loop := forLoop range counter body range.count range.start
  if reusesCounter (← get) counter then loop
  else inScope do
    modifyEnvironment fun e => e.declare counter (.integer range.start) .int true
    loop

variable (call : Invocation) (laps : Nat)

mutual

def evaluate : Expr → Eval Value
  | .integer n _ => return .integer n
  | .float x _ => return .float x
  | .boolean b _ => return .boolean b
  | .string s _ => return .string s
  | .name n span => read n span.start
  | .group inner _ => evaluate inner
  | .binary operator left right span => do
    let l ← evaluate left
    let r ← evaluate right
    settle span.start (operator.apply l r)
  | .unary (.step step) operand span => do
    let old ← evaluate operand
    stepNamed step operand.ungroup.name? old span.start
  | .unary operator operand span => do
    settle span.start (operator.apply (← evaluate operand))
  | .call callee arguments span => do
    call callee (← evaluateAll arguments) span.start
  | .range start stop _ _ _ _ => do
    let a ← toBound (← evaluate start) start.span.start
    let b ← toBound (← evaluate stop) stop.span.start
    return .range a b
  | .run ⟨body, _⟩ _ => inScope (evaluateBlock body (.integer 0))

def evaluateAll : List Expr → Eval (List Value)
  | [] => return []
  | e :: es => do
    let v ← evaluate e
    return v :: (← evaluateAll es)

def evaluateOption : Option Expr → Eval (Option Value)
  | none => return none
  | some e => some <$> evaluate e

/-- The value of the last statement run, `last` if there is none. Only expressions
have a value that is not zero. -/
def evaluateBlock : List Stmt → Value → Eval Value
  | [], last => return last
  | .expression e :: rest, _ => do
    let v ← evaluate e
    if (← get).signals.any then return v else evaluateBlock rest v
  | s :: rest, _ => do
    execute s
    if (← get).signals.any then return .integer 0 else evaluateBlock rest (.integer 0)

/-- The bounds of the range a `for` runs over, whose step defaults to one. -/
def loopRange (position : Position) : Expr → Eval LoopRange
  | .group inner _ => loopRange position inner
  | .range start stop excludesStop descending step _ => do
    let a ← toBound (← evaluate start) start.span.start
    let b ← toBound (← evaluate stop) stop.span.start
    let s ← loopStep step
    return ⟨a, b, s, excludesStop, descending⟩
  | _ => fail .expectedRange position

def loopStep : Option Expr → Eval Int64
  | none => return 1
  | some e => do
    let n ← toBound (← evaluate e) e.span.start
    checkStep n e.span.start
    return n

def execute : Stmt → Eval Unit
  | .expression e => do
    let _ ← evaluate e
  | .declare name constant type value span => do
    declare name constant type (← evaluateOption value) span.start
  | .assign target operator value span => do
    assign target operator (← evaluateOption value) span.start
  | .print value newline _ => do
    let text := match ← evaluateOption value with
      | some v => v.text
      | none => ""
    emit (if newline then text ++ "\n" else text)
  | .block ⟨body, _⟩ => inScope (executeAll body)
  | .branch condition thenBody elseBody _ => do
    if (← evaluate condition).isTruthy then execute thenBody
    else executeOption elseBody
  | .whileLoop condition body _ =>
    whileLoop (Value.isTruthy <$> evaluate condition) (execute body) laps
  | .doWhile body condition _ =>
    doWhile (execute body) (Value.isTruthy <$> evaluate condition) laps
  | .forLoop counter range body _ => do
    let bounds ← loopRange range.span.start range
    runFor bounds counter (execute body)
  | .function _ => return
  | .return value _ => do
    let v ← evaluateOption value
    modify fun s => { s with returned := v, signals := { s.signals with returning := true } }
  | .break _ => modifySignals fun s => { s with breaking := true }
  | .continue _ => modifySignals fun s => { s with continuing := true }

def executeOption : Option Stmt → Eval Unit
  | none => return
  | some s => execute s

/-- Statements in turn, until one sets a signal. -/
def executeAll : List Stmt → Eval Unit
  | [] => return
  | s :: rest => do
    execute s
    unless (← get).signals.any do executeAll rest

end

end Eval

end ScriptLang
