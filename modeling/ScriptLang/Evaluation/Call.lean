import ScriptLang.Evaluation.Evaluator
import ScriptLang.Grammar.Source

/-!
# Calls and programs

Fuel bounds the depth of calls and the laps of `while` and `do`. An answer does
not depend on it; more of it only lets more programs come to one.
-/

namespace ScriptLang

namespace Eval

/-- Binds the arguments to the parameters of a call. -/
def bindParameters : List Parameter → List Value → Position → Eval Unit
  | p :: ps, v :: vs, position => do
    let value ← coerce v p.type position
    modifyEnvironment fun e => e.declare p.name value p.type true
    bindParameters ps vs position
  | _, _, _ => return

/-- Runs the body of a call. Behind it, also when it halts, no signal is set, the
returned value is taken, and the caller's frame is back. -/
def runFrame (callerBase : Nat) (body : Eval Unit) : Eval (Option Value) := fun s =>
  match body s with
  | .ok _ s =>
    .ok s.returned { s with returned := none, signals := .clear, frameBase := callerBase }
  | .error h s =>
    .error h { s with returned := none, signals := .clear, frameBase := callerBase }

/-- Runs a function on as many arguments as it has parameters. -/
def enter (run : List Stmt → Eval Unit) (f : Function) (arguments : List Value)
    (position : Position) : Eval (Option Value) :=
  inScope do
    let callerBase := (← get).frameBase
    modify fun s => { s with frameBase := s.environment.depth - 1 }
    bindParameters f.parameters arguments position
    runFrame callerBase (run f.body.body)

/-- The value of a call for what its body returned. -/
def resultOf (type : DeclaredType) (returned : Option Value) (position : Position) :
    Eval Value :=
  match type, returned with
  | .unit, _ => return .integer 0
  | t, some v => coerce v t position
  | t, none => return .zero t

/-- A call, with `run` for bodies. A call that does not fit its function is reported
and gives a zero value. -/
def callWith (run : List Stmt → Eval Unit) : Invocation := fun name arguments position => do
  match (← get).functions.find? name with
  | none =>
    report (.functionNotDeclared name) position
    return .integer 0
  | some f =>
    let expected := f.parameters.length
    let received := arguments.length
    if expected = received then
      resultOf f.returns (← enter run f arguments position) position
    else
      report (if expected < received then .unexpectedArguments name expected received
        else .missingArguments name expected received) position
      return .zero f.returns

/-- A call in which calls nest less than `fuel` deep. -/
def call : Nat → Invocation
  | 0 => fun _ _ _ => outOfFuel
  | n + 1 => callWith (executeAll (call n) n)

/-- Makes a function known. It replaces one of its name, which is reported. -/
def register (f : Function) : Eval Unit := do
  if (← get).functions.contains f.name then
    report (.functionAlreadyDeclared f.name) f.span.start
  modify fun s => { s with functions := s.functions.insert f.name f }

def registerAll : List Function → Eval Unit
  | [] => return
  | f :: fs => do
    register f
    registerAll fs

/-- Runs the statements of the top level; signals end only the statement they
arise in. -/
def runTopLevel (fuel : Nat) : List Stmt → Eval Unit
  | [] => return
  | s :: rest => do
    execute (call fuel) fuel s
    modify fun s => { s with signals := .clear, returned := none }
    runTopLevel fuel rest

/-- Runs a program: its top level, then `main`. -/
def run (fuel : Nat) (p : Program) : Eval Unit := do
  registerAll p.functions
  runTopLevel fuel p.topLevel
  if (← get).functions.contains "main" then
    let _ ← call fuel "main" [] p.span.start
  else
    fail .missingMain p.span.start

end Eval

/-- Fuel that a program which ends in any reasonable time does not use up. -/
def ampleFuel : Nat := 1000000000000000000

/-- Runs a program from the start. -/
def Program.run (fuel : Nat) (p : Program) : EStateM.Result Halt Evaluation Unit :=
  Eval.run fuel p .new

end ScriptLang
