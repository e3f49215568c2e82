import ScriptLang.Codegen.State

/-!
# Moving and converting results

The result of an expression is left in `%rax`, a float in `%xmm0`, and the bounds
of a range in `%rax` and `%rdx`. Code here loads, stores and converts it.
-/

namespace ScriptLang

open Assembly

/-- Writes the result to a slot of its type. -/
def Slot.storeCode (s : Slot) : List Instruction :=
  match s.type with
  | .float => [.storeFloat .xmm0 s.low]
  | .range =>
    [.move (.register .rax) (.memory s.low), .move (.register .rdx) (.memory s.high)]
  | _ => [.move (.register .rax) (.memory s.low)]

/-- Makes what a slot holds the result. -/
def Slot.loadCode (s : Slot) : List Instruction :=
  match s.type with
  | .float => [.loadFloat s.low .xmm0]
  | .range =>
    [.move (.memory s.low) (.register .rax), .move (.memory s.high) (.register .rdx)]
  | _ => [.move (.memory s.low) (.register .rax)]

/-- Leaves 1 for a result that is true and 0 for one that is not. A NaN, which is
unordered to zero, is true. -/
def ValueType.truthCode : ValueType → List Instruction
  | .integer | .boolean => [.test .rax, .set .ne .rax, .extendByte .rax .rax]
  | .float =>
    [.clearFloat .xmm1, .compareFloatQuiet .xmm1 .xmm0, .set .ne .rax, .set .p .rcx,
     .bitsByte .or (.register .rcx) .rax, .extendByte .rax .rax]
  | .string => [.compareByte 0 (.pointedBy .rax), .set .ne .rax, .extendByte .rax .rax]
  | .range => [.moveLong 1 .rax]

/-- Jumps to a label if the result is false. -/
def ValueType.jumpIfFalse (type : ValueType) (target : Label) : List Instruction :=
  type.truthCode ++ [.test .rax, .jumpIf .e target]

namespace Gen

/-- Makes the zero of a type the result. -/
def emitZero : ValueType → Gen Unit
  | .float => emit [.clearFloat .xmm0]
  | .string => do emit [.address (← internString "") .rax]
  | .range => emit [.clear .rax, .clear .rdx]
  | .integer | .boolean => emit [.clear .rax]

/-- Stores the result in a slot without a name. -/
def spill (type : ValueType) : Gen Slot := do
  let slot ← temporary type
  emit slot.storeCode
  return slot

/-- Converts the result. Integers and floats convert to each other; all else that
differs is reported and replaced by zero. -/
def emitCoercion (source target : ValueType) (position : Position) : Gen Unit := do
  if source = target then return
  else match source, target with
    | .integer, .float => emit [.toFloat .rax .xmm0]
    | .float, .integer => emit [.toInteger .xmm0 .rax]
    | _, _ =>
      report (.typeMatch target.declaredType.name source.name) position
      emitZero target

/-- Formats a value into a fresh buffer on the heap. -/
def emitFormatted (format : Format) (type : ValueType) (arguments : Slot → List Instruction) :
    Gen Unit := do
  let value ← spill type
  let buffer ← temporary .string
  emit [.moveLong 48 .rdi, .callLibrary .malloc, .move (.register .rax) (.memory buffer.low),
    .move (.register .rax) (.register .rdi), .address (.format format false) .rsi]
  emit (arguments value)
  emit [.callLibrary .sprintf, .move (.memory buffer.low) (.register .rax)]

/-- Turns the result into a pointer to its text. -/
def emitText : ValueType → Gen Unit
  | .string => return
  | .boolean =>
    emit [.test .rax, .address (.truth true) .rcx, .address (.truth false) .rax,
      .moveIfNotEqual .rcx .rax]
  | .integer => emitFormatted .integer .integer fun v =>
    [.move (.memory v.low) (.register .rdx), .clear .rax]
  | .float => emitFormatted .float .float fun v =>
    [.loadFloat v.low .xmm0, .moveLong 1 .rax]
  | .range => emitFormatted .range .range fun v =>
    [.move (.memory v.low) (.register .rdx), .move (.memory v.high) (.register .rcx),
     .clear .rax]

/-- The slot of a variable. A name that means nothing is reported and means, from
here on, an integer that starts as zero. -/
def resolve (name : String) (position : Position) : Gen Slot := do
  match (← get).find? name with
  | some slot => return slot
  | none =>
    report (.variableNotDeclared name) position
    let slot ← declare name .integer true
    emit [.move (.immediate 0) (.memory slot.low)]
    return slot

end Gen

end ScriptLang
