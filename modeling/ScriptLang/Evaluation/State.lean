import ScriptLang.Environment
import ScriptLang.Halt
import ScriptLang.Tree.Program
import ScriptLang.Value.Operation

/-!
# State of an evaluation

What statements read and change: variables, functions, control signals, output
and diagnostics. An evaluation that halts keeps the state it halted in.
-/

namespace ScriptLang

/-- Set by `return`, `break` and `continue`. Sequences of statements end as soon
as any is set, and stay so until a loop or a call clears them. -/
structure Signals where
  returning : Bool
  breaking : Bool
  continuing : Bool
  deriving DecidableEq

namespace Signals

def clear : Signals := ⟨false, false, false⟩

def any (s : Signals) : Bool := s.returning || s.breaking || s.continuing

/-- Only a return stays. -/
def clearLoop (s : Signals) : Signals := { s with breaking := false, continuing := false }

/-- Whether a loop ends behind a body that left these signals: on a break, or on a
return that goes on. -/
def endsLoop (s : Signals) : Bool := s.breaking || s.returning

/-- The signals a loop leaves behind its body. A break uses itself up; otherwise
what is used up is a continue. -/
def afterBody (s : Signals) : Signals :=
  if s.breaking then { s with breaking := false } else { s with continuing := false }

end Signals

structure Evaluation where
  environment : Environment
  functions : NameMap Function
  signals : Signals
  /-- The value of the last return, until the call it ends takes it. -/
  returned : Option Value
  /-- The index of the scope the running call opened, zero outside of calls. -/
  frameBase : Nat
  output : String
  diagnostics : List Fault

namespace Evaluation

/-- Nothing is declared, printed or reported. -/
def new : Evaluation := ⟨.new, .empty, .clear, none, 0, "", []⟩

end Evaluation

/-- A computation on the state of an evaluation. -/
abbrev Eval := EStateM Halt Evaluation

namespace Eval

def fail {α : Type} (cause : Cause) (position : Position) : Eval α :=
  throw (.fault ⟨cause, position⟩)

def outOfFuel {α : Type} : Eval α := throw .outOfFuel

/-- Records a diagnostic. -/
def report (cause : Cause) (position : Position) : Eval Unit :=
  modify fun s => { s with diagnostics := s.diagnostics ++ [⟨cause, position⟩] }

/-- Prints a text. -/
def emit (text : String) : Eval Unit := modify fun s => { s with output := s.output ++ text }

def modifySignals (f : Signals → Signals) : Eval Unit :=
  modify fun s => { s with signals := f s.signals }

def modifyEnvironment (f : Environment → Environment) : Eval Unit :=
  modify fun s => { s with environment := f s.environment }

/-- Runs a computation in a scope of its own, which is left also when it halts. -/
def inScope {α : Type} (body : Eval α) : Eval α := fun s =>
  match body { s with environment := s.environment.push } with
  | .ok a s => .ok a { s with environment := s.environment.pop }
  | .error h s => .error h { s with environment := s.environment.pop }

/-- The value of an operator's outcome, reported or failed at a position. -/
def settle (position : Position) : Outcome → Eval Value
  | .value v => return v
  | .reported cause v => do
    report cause position
    return v
  | .failed cause => fail cause position

/-- The value converted to a type. One that does not fit is reported and replaced
by the zero of the type. -/
def coerce (v : Value) (type : DeclaredType) (position : Position) : Eval Value :=
  match v.convert? type with
  | some w => return w
  | none => do
    report (.typeMatch type.name v.type.name) position
    return .zero type

/-- The value as an integer. One that is not numeric is reported and counts as zero. -/
def toBound (v : Value) (position : Position) : Eval Int64 :=
  match v.asInteger? with
  | some n => return n
  | none => do
    report (.typeMatch DeclaredType.int.name v.type.name) position
    return 0

/-- The value of a variable. One that is not declared is reported and reads as zero. -/
def read (name : String) (position : Position) : Eval Value := do
  match (← get).environment.find? name with
  | some b => return b.value
  | none =>
    report (.variableNotDeclared name) position
    return .integer 0

/-- Stores a value in a variable, or reports why it cannot. -/
def store (name : String) (v : Value) (position : Position) : Eval Unit := do
  match (← get).environment.update name v with
  | .ok e => modifyEnvironment fun _ => e
  | .error .immutable => report (.valReassignment name) position
  | .error .undeclared => report (.variableNotDeclared name) position

end Eval

end ScriptLang
