import ScriptLang.Codegen.Convention
import ScriptLang.Codegen.Operation

/-!
# Code for expressions and statements

Generation follows the tree. An operand is stored before the next one is
evaluated, so nested expressions need no registers of their own.
-/

namespace ScriptLang

open Assembly

namespace Gen

/-- The slots and direction of a `for`. -/
structure LoopSlots where
  counter : Slot
  limit : Slot
  step : Slot
  excludesStop : Bool
  descending : Bool

/-- The condition on which a `for` ends, of the counter compared with its limit. -/
def LoopSlots.exitCondition (l : LoopSlots) : Condition :=
  match l.descending, l.excludesStop with
  | false, true => .ge
  | false, false => .g
  | true, true => .le
  | true, false => .l

/-- A constant that fits 32 bits is an operand, another needs an instruction of its own. -/
def constantCode (n : Int64) : Instruction :=
  if Int32.minValue.toInt ≤ n.toInt && n.toInt ≤ Int32.maxValue.toInt then
    .move (.immediate n.toInt) (.register .rax)
  else .moveWide n.toInt .rax

/-- Makes a type's zero the result of a call that cannot be made. -/
def emitFailedCall (cause : Cause) (type : ValueType) (position : Position) : Gen ValueType := do
  report cause position
  emitZero type
  return type

/-- Stores a declared value, or zero, in the slot of its variable: the given cell,
or a fresh slot of the frame. -/
def emitDeclaration (cell : Option Slot) (name : String) (constant : Bool)
    (type : Option DeclaredType) (value : Option ValueType) (position : Position) :
    Gen Unit := do
  let slot ← match cell with
    | some slot => do
      modify fun g => { g with globals := g.globals.insert name slot }
      pure slot
    | none =>
      let chosen := match type, value with
        | some t, _ => t.valueType
        | none, some v => v
        | none, none => .integer
      declare name chosen !constant
  match value with
  | some v => emitCoercion v slot.type position
  | none => emitZero slot.type
  emit slot.storeCode

/-- Assigns a result, if there is one, to a variable. -/
def emitAssignment (target : String) (operator : AssignOperator) (value : Option ValueType)
    (position : Position) : Gen Unit := do
  match (← get).find? target with
  | none => report (.variableNotDeclared target) position
  | some slot =>
    match operator with
    | .step step =>
      emit slot.loadCode
      emitStep target slot step.isIncrement position
    | .set =>
      if slot.mutable then
        emitCoercion (value.getD .integer) slot.type position
        emit slot.storeCode
      else report (.valReassignment target) position
    | .combine o =>
      if slot.mutable then
        let operand := value.getD .integer
        let right ← spill operand
        emit slot.loadCode
        let left ← spill slot.type
        emit right.loadCode
        let type ← emitBinary (.arithmetic o) left operand position
        emitCoercion type slot.type position
        emit slot.storeCode
      else report (.valReassignment target) position

/-- Prints a line's end. -/
def printNewline : List Instruction :=
  [.address .newline .rdi, .clear .rax, .callLibrary .printf]

/-- Prints the result. -/
def emitPrint (type : ValueType) (newline : Bool) : Gen Unit := do
  match type with
  | .integer =>
    emit [.move (.register .rax) (.register .rsi), .address (.format .integer newline) .rdi,
      .clear .rax]
  | .float => emit [.address (.format .float newline) .rdi, .moveLong 1 .rax]
  | .range =>
    emit [.move (.register .rax) (.register .rsi), .address (.format .range newline) .rdi,
      .clear .rax]
  | .boolean | .string =>
    emitText type
    emit [.move (.register .rax) (.register .rsi), .address (.format .string newline) .rdi,
      .clear .rax]
  emit [.callLibrary .printf]

/-- Leaves the function, or at the top level the statement. -/
def emitReturn (value : Option (ValueType × Position)) : Gen Unit := do
  let g ← get
  match g.topLevelExit with
  | some exit => emit [.jump exit]
  | none =>
    match value with
    | some (type, position) =>
      if g.returns = .unit then emitZero .integer
      else emitCoercion type g.returns.valueType position
    | none => emitZero g.returns.valueType
    emit [.jump g.epilogue]

/-- Jumps to a label of the innermost loop. Outside of loops, the rest of the
statement of the top level is skipped, or the rest of the function. -/
def emitLoopJump (target : LoopLabels → Label) : Gen Unit := do
  let g ← get
  match g.loops with
  | labels :: _ => emit [.jump (target labels)]
  | [] => match g.topLevelExit with
    | some exit => emit [.jump exit]
    | none =>
      emitZero g.returns.valueType
      emit [.jump g.epilogue]

/-- Runs `body` with the counter of a `for` in a variable: the one of that name if
it can hold the counter, else one of its own. -/
def withCounter (counter : String) (body : Slot → Gen Unit) : Gen Unit := do
  match (← get).find? counter with
  | some slot =>
    if slot.mutable && slot.type = .integer then body slot
    else inScope do body (← declare counter .integer true)
  | none => inScope do body (← declare counter .integer true)

/-- The laps of a `for`. The body sees a copy of the counter; stepping past the
range of integers ends the loop. -/
def emitLaps (number : Nat) (slots : LoopSlots) (body : Gen Unit) (copy : Slot) :
    Gen Unit := do
  let done : Label := .numbered .forEnd number
  emit [.label (.numbered .forStart number),
    .move (.memory slots.counter.low) (.register .rax),
    .compare (.memory slots.limit.low) .rax, .jumpIf slots.exitCondition done,
    .move (.register .rax) (.memory copy.low)]
  inLoop ⟨.numbered .forNext number, done⟩ body
  emit [.label (.numbered .forNext number),
    .move (.memory slots.counter.low) (.register .rax),
    .integer (if slots.descending then .subtract else .add) (.memory slots.step.low) .rax,
    .jumpIf .o done, .move (.register .rax) (.memory slots.counter.low),
    .jump (.numbered .forStart number), .label done]

/-- Checks the step of a `for`, which is the result, and keeps it. -/
def emitStepCheck : Gen Slot := do
  emit [.test .rax, .jumpIf .e (.trap .zeroStep), .jumpIf .s (.trap .negativeStep)]
  spill .integer

mutual

/-- Makes the value of an expression the result and gives its type. -/
def expression : Expr → Gen ValueType
  | .integer n _ => do
    emit [constantCode n]
    return .integer
  | .float x _ => do
    emit [.loadFloat (.data (← internFloat x.toBits) 0) .xmm0]
    return .float
  | .boolean b _ => do
    emit [.move (.immediate (if b then 1 else 0)) (.register .rax)]
    return .boolean
  | .string s _ => do
    emit [.address (← internString s) .rax]
    return .string
  | .name n span => do
    let slot ← resolve n span.start
    emit slot.loadCode
    return slot.type
  | .group inner _ => expression inner
  | .binary operator left right span => do
    let leftSlot ← spill (← expression left)
    let rightType ← expression right
    emitBinary operator leftSlot rightType span.start
  | .unary (.step step) operand span =>
    match operand.ungroup.name? with
    | some name => emitStepValue step name span.start
    | none => expression operand
  | .unary operator operand span => do
    emitUnary operator (← expression operand) span.start
  | .call callee arguments span => do
    match (← get).signatures.find? callee with
    | none =>
      discarded arguments
      emitFailedCall (.functionNotDeclared callee) .integer span.start
    | some ⟨symbol, f⟩ =>
      let expected := f.parameters.length
      let received := arguments.length
      if expected = received then
        let slots ← stored arguments f.parameters
        emit (callCode symbol slots)
        if f.returns = .unit then emit [.clear .rax]
        return f.returns.valueType
      else
        discarded arguments
        emitFailedCall
          (if expected < received then .unexpectedArguments callee expected received
            else .missingArguments callee expected received)
          f.returns.valueType span.start
  | .range start stop _ _ _ _ => do
    emitCoercion (← expression start) .integer start.span.start
    let first ← spill .integer
    emitCoercion (← expression stop) .integer stop.span.start
    emit [.move (.register .rax) (.register .rdx), .move (.memory first.low) (.register .rax)]
    return .range
  | .run ⟨body, _⟩ _ => do
    match ← inScope (lastValue body) with
    | some type => return type
    | none =>
      emit [.clear .rax]
      return .integer

/-- Evaluates expressions for their effects. -/
def discarded : List Expr → Gen Unit
  | [] => return
  | e :: es => do
    let _ ← expression e
    discarded es

/-- Evaluates the arguments of a call into slots of the parameters' types. -/
def stored : List Expr → List Parameter → Gen (List Slot)
  | e :: es, p :: ps => do
    let type ← expression e
    emitCoercion type p.type.valueType e.span.start
    let slot ← spill p.type.valueType
    return slot :: (← stored es ps)
  | _, _ => return []

/-- Generates statements, and gives the type of the last one if it is an expression. -/
def lastValue : List Stmt → Gen (Option ValueType)
  | [] => return none
  | [.expression e] => some <$> expression e
  | s :: rest => do
    statement s
    lastValue rest

def option : Option Expr → Gen (Option ValueType)
  | none => return none
  | some e => some <$> expression e

/-- Evaluates the bounds and the step of a `for` into slots. -/
def loopSlots (position : Position) : Expr → Gen LoopSlots
  | .group inner _ => loopSlots position inner
  | .range start stop excludesStop descending step _ => do
    emitCoercion (← expression start) .integer start.span.start
    let counter ← spill .integer
    emitCoercion (← expression stop) .integer stop.span.start
    let limit ← spill .integer
    return ⟨counter, limit, ← loopStep step, excludesStop, descending⟩
  | _ => throw ⟨.expectedRange, position⟩

def loopStep : Option Expr → Gen Slot
  | some e => do
    emitCoercion (← expression e) .integer e.span.start
    emitStepCheck
  | none => do
    let slot ← temporary .integer
    emit [.move (.immediate 1) (.memory slot.low)]
    return slot

def statement : Stmt → Gen Unit
  | .expression e => do
    let _ ← expression e
  | .declare name constant type value span => do
    emitDeclaration none name constant type (← option value) span.start
  | .assign target operator value span => do
    emitAssignment target operator (← option value) span.start
  | .print none newline _ => if newline then emit printNewline else return
  | .print (some e) newline _ => do emitPrint (← expression e) newline
  | .block ⟨body, _⟩ => inScope (statements body)
  | .branch condition thenBody elseBody _ => do
    let number ← nextLabel
    let type ← expression condition
    emit (type.jumpIfFalse (.numbered .otherwise number))
    statement thenBody
    emit [.jump (.numbered .endIf number), .label (.numbered .otherwise number)]
    statementOption elseBody
    emit [.label (.numbered .endIf number)]
  | .whileLoop condition body _ => do
    let number ← nextLabel
    let start : Label := .numbered .whileStart number
    let done : Label := .numbered .whileEnd number
    emit [.label start]
    let type ← expression condition
    emit (type.jumpIfFalse done)
    inLoop ⟨start, done⟩ (statement body)
    emit [.jump start, .label done]
  | .doWhile body condition _ => do
    let number ← nextLabel
    let start : Label := .numbered .doStart number
    let test : Label := .numbered .doCondition number
    let done : Label := .numbered .doEnd number
    emit [.label start]
    inLoop ⟨test, done⟩ (statement body)
    emit [.label test]
    let type ← expression condition
    emit (type.truthCode ++ [.test .rax, .jumpIf .ne start, .label done])
  | .forLoop counter range body _ => do
    let number ← nextLabel
    let slots ← loopSlots range.span.start range
    withCounter counter (emitLaps number slots (statement body))
  | .function _ => return
  | .return none _ => emitReturn none
  | .return (some e) _ => do
    let type ← expression e
    emitReturn (some (type, e.span.start))
  | .break _ => emitLoopJump (·.onBreak)
  | .continue _ => emitLoopJump (·.onContinue)

def statementOption : Option Stmt → Gen Unit
  | none => return
  | some s => statement s

def statements : List Stmt → Gen Unit
  | [] => return
  | s :: rest => do
    statement s
    statements rest

end

end Gen

end ScriptLang
