import ScriptLang.Codegen.Transfer

/-!
# Code for operators

The left operand of a binary operator is in a slot, and the right one is the
result of what ran last.
-/

namespace ScriptLang

open Assembly

/-- The code of `+`, `-` and `*` on integers, or of a division whose labels have a
given number. The quotient by -1 is a negation, since `idivq` traps on the least
integer. -/
def Arithmetic.integerCode (operator : Arithmetic) (number : Nat) : List Instruction :=
  match operator with
  | add => [.integer .add (.register .rcx) .rax]
  | subtract => [.integer .subtract (.register .rcx) .rax]
  | multiply => [.integer .multiply (.register .rcx) .rax]
  | divide =>
    [.test .rcx, .jumpIf .e (.trap .divisionByZero), .compare (.immediate (-1)) .rcx,
     .jumpIf .ne (.numbered .divide number), .negate .rax, .jump (.numbered .divideEnd number),
     .label (.numbered .divide number), .extendSign, .divide .rcx,
     .label (.numbered .divideEnd number)]
  | modulo =>
    [.test .rcx, .jumpIf .e (.trap .moduloByZero), .compare (.immediate (-1)) .rcx,
     .jumpIf .ne (.numbered .divide number), .clear .rax, .jump (.numbered .divideEnd number),
     .label (.numbered .divide number), .extendSign, .divide .rcx,
     .move (.register .rdx) (.register .rax), .label (.numbered .divideEnd number)]

def Arithmetic.divides : Arithmetic → Bool
  | divide | modulo => true
  | _ => false

def Arithmetic.floatCode : Arithmetic → Instruction
  | add => .float .add .xmm1 .xmm0
  | subtract => .float .subtract .xmm1 .xmm0
  | multiply => .float .multiply .xmm1 .xmm0
  | divide => .float .divide .xmm1 .xmm0
  | modulo => .callLibrary .fmod

/-- Makes both operands floats, the left one in `%xmm0` and the right in `%xmm1`. -/
def floatOperands (left : Slot) (right : ValueType) : List Instruction :=
  (if right = .integer then [.toFloat .rax .xmm0] else []) ++
  [.moveFloat .xmm0 .xmm1] ++ left.loadCode ++
  (if left.type = .integer then [.toFloat .rax .xmm0] else [])

namespace Comparison

/-- The condition that holds behind a signed comparison. -/
def condition : Comparison → Condition
  | less => .l
  | lessEquals => .le
  | greater => .g
  | greaterEquals => .ge
  | equals => .e
  | notEquals => .ne

/-- Compares the floats in `%xmm0` and `%xmm1`. Unordered operands set the zero,
parity and carry flags, so only `!=` holds of them. -/
def floatCode : Comparison → List Instruction
  | less => [.compareFloat .xmm0 .xmm1, .set .a .rax]
  | lessEquals => [.compareFloat .xmm0 .xmm1, .set .ae .rax]
  | greater => [.compareFloat .xmm1 .xmm0, .set .a .rax]
  | greaterEquals => [.compareFloat .xmm1 .xmm0, .set .ae .rax]
  | equals =>
    [.compareFloatQuiet .xmm1 .xmm0, .set .e .rax, .set .np .rcx,
     .bitsByte .and (.register .rcx) .rax]
  | notEquals =>
    [.compareFloatQuiet .xmm1 .xmm0, .set .ne .rax, .set .p .rcx,
     .bitsByte .or (.register .rcx) .rax]

def stringCode (operator : Comparison) (left : Slot) : List Instruction :=
  [.move (.register .rax) (.register .rsi)] ++ left.loadCode ++
  [.move (.register .rax) (.register .rdi), .callLibrary .strcmp, .compareLong 0 .rax,
   .set operator.condition .rax]

def wordCode (operator : Comparison) (left : Slot) : List Instruction :=
  [.move (.register .rax) (.register .rcx)] ++ left.loadCode ++
  [.compare (.register .rcx) .rax, .set operator.condition .rax]

/-- Whether ranges are equal, and then perhaps the opposite. -/
def rangeCode (opposite : Bool) (left : Slot) : List Instruction :=
  [.move (.register .rax) (.register .r10), .move (.register .rdx) (.register .r11)] ++
  left.loadCode ++
  [.compare (.register .r10) .rax, .set .e .rax, .compare (.register .r11) .rdx,
   .set .e .rcx, .bitsByte .and (.register .rcx) .rax] ++
  (if opposite then [.bitsByte .exclusive (.immediate 1) .rax] else [])

/-- Leaves 0 or 1 in `%al`, or says why operands of these types do not compare. -/
def code (operator : Comparison) (left : Slot) (right : ValueType) :
    Except Cause (List Instruction) :=
  match left.type, right with
  | .string, .string => .ok (operator.stringCode left)
  | .integer, .integer | .boolean, .boolean => .ok (operator.wordCode left)
  | .range, .range =>
    match operator with
    | equals => .ok (rangeCode false left)
    | notEquals => .ok (rangeCode true left)
    | _ => .error (.invalidOperands operator.symbol left.type.name right.name)
  | l, r =>
    if l.isNumeric && r.isNumeric then .ok (floatOperands left right ++ operator.floatCode)
    else .error (.typeMatch l.name r.name)

end Comparison

/-- Both operands as truth values, combined. -/
def Connective.code (operator : Connective) (left : Slot) (right : ValueType) :
    List Instruction :=
  right.truthCode ++ [.move (.register .rax) (.register .r11)] ++ left.loadCode ++
  left.type.truthCode ++
  [.bits (match operator with | and => .and | or => .or) (.register .r11) .rax]

namespace Gen

/-- Joins two texts in a fresh buffer on the heap. -/
def emitJoin (left : Slot) (right : ValueType) : Gen Unit := do
  emitText right
  let rightText ← spill .string
  emit left.loadCode
  emitText left.type
  let leftText ← spill .string
  let length ← temporary .integer
  let buffer ← temporary .string
  emit [.move (.memory leftText.low) (.register .rdi), .callLibrary .strlen,
    .move (.register .rax) (.memory length.low),
    .move (.memory rightText.low) (.register .rdi), .callLibrary .strlen,
    .integer .add (.memory length.low) .rax, .addressOffset 1 .rax .rdi,
    .callLibrary .malloc, .move (.register .rax) (.memory buffer.low),
    .move (.register .rax) (.register .rdi),
    .move (.memory leftText.low) (.register .rsi), .callLibrary .strcpy,
    .move (.memory buffer.low) (.register .rdi),
    .move (.memory rightText.low) (.register .rsi), .callLibrary .strcat,
    .move (.memory buffer.low) (.register .rax)]

def emitIntegerArithmetic (operator : Arithmetic) (left : Slot) : Gen Unit := do
  emit ([.move (.register .rax) (.register .rcx)] ++ left.loadCode)
  let number ← if operator.divides then nextLabel else pure 0
  emit (operator.integerCode number)

/-- Reports operands that an operator cannot be applied to. -/
def reportInvalid (operator : String) (left right : ValueType) (position : Position) :
    Gen Unit :=
  report (.invalidOperands operator left.name right.name) position

def emitArithmetic (operator : Arithmetic) (left : Slot) (right : ValueType)
    (position : Position) : Gen ValueType := do
  if operator = .add && (left.type = .string || right = .string) then
    emitJoin left right
    return .string
  else if left.type = .integer && right = .integer then
    emitIntegerArithmetic operator left
    return .integer
  else if left.type.isNumeric && right.isNumeric then
    emit (floatOperands left right ++ [operator.floatCode])
    return .float
  else
    reportInvalid operator.symbol left.type right position
    emit [.clear .rax]
    return .integer

def emitComparison (operator : Comparison) (left : Slot) (right : ValueType)
    (position : Position) : Gen ValueType := do
  match operator.code left right with
  | .ok code => emit code
  | .error cause =>
    report cause position
    emit [.clear .rax]
  emit [.extendByte .rax .rax]
  return .boolean

/-- Applies an operator and gives the type of the result. -/
def emitBinary (operator : BinaryOperator) (left : Slot) (right : ValueType)
    (position : Position) : Gen ValueType := do
  match operator with
  | .arithmetic o => emitArithmetic o left right position
  | .comparison o => emitComparison o left right position
  | .logical o =>
    emit (o.code left right)
    return .boolean

/-- Applies an operator other than a step to the result. -/
def emitUnary (operator : UnaryOperator) (operand : ValueType) (position : Position) :
    Gen ValueType := do
  match operator, operand with
  | .not, t =>
    emit (t.truthCode ++ [.bits .exclusive (.immediate 1) .rax])
    return .boolean
  | .negate, .integer =>
    emit [.negate .rax]
    return .integer
  | .negate, .float =>
    emit [.bitsOfFloat .xmm0 .rax, .flipBit 63 .rax, .floatOfBits .rax .xmm0]
    return .float
  | o, t =>
    unless t.isNumeric do reportInvalid o.symbol t t position
    return t

/-- Steps a variable whose value is loaded: the new value is left in `%rcx`, a
float in `%xmm2`, and stored unless the variable is a `val`. Other types stay. -/
def emitStep (name : String) (slot : Slot) (increment : Bool) (position : Position) :
    Gen Unit := do
  let finish (store : Instruction) : Gen Unit :=
    if slot.mutable then emit [store] else report (.valReassignment name) position
  match slot.type with
  | .integer =>
    emit [.addressOffset (if increment then 1 else -1) .rax .rcx]
    finish (.move (.register .rcx) (.memory slot.low))
  | .float =>
    let one ← internFloat (Float.toBits 1)
    emit [.moveFloat .xmm0 .xmm2,
      .floatMemory (if increment then .add else .subtract) (.data one 0) .xmm2]
    finish (.storeFloat .xmm2 slot.low)
  | _ => return

/-- Steps a variable as an expression, valued before or behind the step. -/
def emitStepValue (step : Step) (name : String) (position : Position) : Gen ValueType := do
  let slot ← resolve name position
  emit slot.loadCode
  emitStep name slot step.isIncrement position
  if step.isBefore then
    match slot.type with
    | .integer => emit [.move (.register .rcx) (.register .rax)]
    | .float => emit [.moveFloat .xmm2 .xmm0]
    | _ => pure ()
  return slot.type

end Gen

end ScriptLang
