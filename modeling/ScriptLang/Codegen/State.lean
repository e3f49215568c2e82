import ScriptLang.Assembly.Instruction
import ScriptLang.Fault
import ScriptLang.Frame
import ScriptLang.Tree.Program

/-!
# State of code generation

What is known of the program, the pools of constants, and the function in the
making: its frame, its code, and where its jumps lead.
-/

namespace ScriptLang

open Assembly

structure Signature where
  symbol : String
  function : Function

/-- Where `continue` and `break` lead in a loop. -/
structure LoopLabels where
  onContinue : Label
  onBreak : Label
  deriving DecidableEq

/-- The function in the making. -/
structure CurrentFunction where
  symbol : String
  returns : DeclaredType
  deriving DecidableEq

structure Generator where
  signatures : NameMap Signature
  /-- The cell each global name means at this point. -/
  globals : NameMap Slot
  frame : Frame
  code : Array Instruction
  strings : Array String
  /-- The bits of the float constants. Bits tell NaNs apart, as they tell zeros apart. -/
  floats : Array UInt64
  /-- The number given to labels last. -/
  labels : Nat
  /-- Innermost first. -/
  loops : List LoopLabels
  current : Option CurrentFunction
  /-- The end of the statement of the top level in the making. -/
  topLevelExit : Option Label
  diagnostics : List Fault

namespace Generator

/-- Nothing is known or made. -/
def new : Generator := ⟨.empty, .empty, .new, #[], #[], #[], 0, [], none, none, []⟩

/-- What a name means: a slot of the frame first, then a global. -/
def find? (g : Generator) (name : String) : Option Slot :=
  (g.frame.find? name).or (g.globals.find? name)

/-- Where `return` leads. -/
def epilogue (g : Generator) : Label := .epilogue ((g.current.map (·.symbol)).getD "main")

/-- The return type of the function in the making. -/
def returns (g : Generator) : DeclaredType := (g.current.map (·.returns)).getD .unit

end Generator

/-- A computation that generates code. -/
abbrev Gen := EStateM Fault Generator

namespace Gen

/-- Appends instructions to the function in the making. -/
def emit (code : List Instruction) : Gen Unit := modify fun g => { g with code := g.code ++ code }

/-- Records a diagnostic. -/
def report (cause : Cause) (position : Position) : Gen Unit :=
  modify fun g => { g with diagnostics := g.diagnostics ++ [⟨cause, position⟩] }

/-- A fresh number for labels. -/
def nextLabel : Gen Nat := do
  modify fun g => { g with labels := g.labels + 1 }
  return (← get).labels

/-- The label of a text in the pool. -/
def internString (s : String) : Gen Label := do
  let strings := (← get).strings
  match strings.idxOf? s with
  | some i => return .string i
  | none =>
    modify fun g => { g with strings := g.strings.push s }
    return .string strings.size

/-- The label of the float with these bits in the pool, which holds no bits twice. -/
def internFloat (bits : UInt64) : Gen Label := do
  let floats := (← get).floats
  match floats.idxOf? bits with
  | some i => return .float i
  | none =>
    modify fun g => { g with floats := g.floats.push bits }
    return .float floats.size

def modifyFrame (f : Frame → Frame) : Gen Unit := modify fun g => { g with frame := f g.frame }

/-- A slot without a name. -/
def temporary (type : ValueType) : Gen Slot := do
  let (slot, frame) := (← get).frame.temporary type
  modifyFrame fun _ => frame
  return slot

/-- A slot with a name. -/
def declare (name : String) (type : ValueType) (mutable : Bool) : Gen Slot := do
  let (slot, frame) := (← get).frame.declare name type mutable
  modifyFrame fun _ => frame
  return slot

/-- Generates in a scope of its own. -/
def inScope {α : Type} (body : Gen α) : Gen α := do
  modifyFrame .push
  let a ← body
  modifyFrame .pop
  return a

/-- Generates the body of a loop. -/
def inLoop (labels : LoopLabels) (body : Gen Unit) : Gen Unit := do
  modify fun g => { g with loops := labels :: g.loops }
  body
  modify fun g => { g with loops := g.loops.tail }

end Gen

end ScriptLang
