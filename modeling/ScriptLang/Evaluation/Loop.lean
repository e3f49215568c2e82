import ScriptLang.Evaluation.State

/-!
# Loops

Loops over computations for their tests and bodies. `while` and `do` run on fuel,
a unit a lap. The laps of a `for` are known from its bounds before it starts.
-/

namespace ScriptLang

/-- The numbers a `for` runs through, for a positive step. -/
structure LoopRange where
  start : Int64
  stop : Int64
  step : Int64
  excludesStop : Bool
  descending : Bool
  deriving DecidableEq

namespace LoopRange

/-- How far the loop has to go, negative if it is behind its end from the start. -/
def distance (r : LoopRange) : Int :=
  (if r.descending then r.start.toInt - r.stop.toInt else r.stop.toInt - r.start.toInt) -
    (if r.excludesStop then 1 else 0)

/-- The number of laps. -/
def count (r : LoopRange) : Nat :=
  if 0 ≤ r.distance then (r.distance / r.step.toInt).toNat + 1 else 0

/-- The number behind `n`. -/
def next (r : LoopRange) (n : Int64) : Int64 := if r.descending then n - r.step else n + r.step

end LoopRange

namespace Eval

/-- Runs the body of a loop with no loop signal set; true if the loop goes on. -/
def lap (body : Eval Unit) : Eval Bool := do
  modifySignals .clearLoop
  body
  let signals := (← get).signals
  modifySignals .afterBody
  return !signals.endsLoop

/-- Tests before each lap. -/
def whileLoop (test : Eval Bool) (body : Eval Unit) : Nat → Eval Unit
  | 0 => outOfFuel
  | n + 1 => do
    if ← test then
      if ← lap body then whileLoop test body n

/-- Tests behind each lap. -/
def doWhile (body : Eval Unit) (test : Eval Bool) : Nat → Eval Unit
  | 0 => outOfFuel
  | n + 1 => do
    if ← lap body then
      if ← test then doWhile body test n

/-- Sets the counter of a `for`. Its binding is mutable; were it not, it would stay. -/
def setCounter (counter : String) (n : Int64) : Eval Unit :=
  modifyEnvironment fun e => match e.update counter (.integer n) with
    | .ok e => e
    | .error _ => e

/-- Runs laps with the counter at `n` and the numbers behind it. What a lap stores
in the counter does not matter to the next. -/
def forLoop (range : LoopRange) (counter : String) (body : Eval Unit) : Nat → Int64 → Eval Unit
  | 0, _ => return
  | laps + 1, n => do
    setCounter counter n
    if ← lap body then forLoop range counter body laps (range.next n)

end Eval

end ScriptLang
