import ScriptLang.Fault
import ScriptLang.Tree.Operators
import ScriptLang.Value

/-!
# Operators on values

Operators are defined on all values. Operands that do not fit are reported and
give a zero value; only integer division and remainder by zero fail.
-/

namespace ScriptLang

inductive Outcome where
  | value (value : Value)
  /-- A value in place of a result, and why. -/
  | reported (cause : Cause) (value : Value)
  | failed (cause : Cause)

namespace Outcome

/-- The operator cannot be applied to operands of these types. -/
def invalid (operator : String) (left right : Value) (result : Value) : Outcome :=
  .reported (.invalidOperands operator left.type.name right.type.name) result

end Outcome

namespace Arithmetic

/-- Integers wrap around at 64 bits. -/
def onIntegers (operator : Arithmetic) (l r : Int64) : Outcome :=
  match operator with
  | add => .value (.integer (l + r))
  | subtract => .value (.integer (l - r))
  | multiply => .value (.integer (l * r))
  | divide => if r = 0 then .failed .divisionByZero else .value (.integer (l / r))
  | modulo => if r = 0 then .failed .moduloByZero else .value (.integer (l % r))

def onFloats (operator : Arithmetic) (l r : Float) : Float :=
  match operator with
  | add => l + r
  | subtract => l - r
  | multiply => l * r
  | divide => l / r
  | modulo => Number.remainder l r

/-- Arithmetic on numbers: on integers if both are, else on floats. -/
def onNumbers (operator : Arithmetic) (left right : Value) : Outcome :=
  match left, right with
  | .integer l, .integer r => operator.onIntegers l r
  | _, _ => match left.asFloat?, right.asFloat? with
    | some l, some r => .value (.float (operator.onFloats l r))
    | _, _ => .invalid operator.symbol left right (.integer 0)

/-- Adding to or from a string joins texts. -/
def apply (operator : Arithmetic) (left right : Value) : Outcome :=
  match operator, left, right with
  | add, .string l, r => .value (.string (l ++ r.text))
  | add, l, .string r => .value (.string (l.text ++ r))
  | _, _, _ => operator.onNumbers left right

end Arithmetic

namespace Comparison

/-- Whether a comparison holds of operands in a given order. -/
def holds (operator : Comparison) (order : Ordering) : Bool :=
  match operator with
  | less => order == .lt
  | lessEquals => order != .gt
  | greater => order == .gt
  | greaterEquals => order != .lt
  | equals => order == .eq
  | notEquals => order != .eq

def orderIntegers (l r : Int64) : Ordering := if l < r then .lt else if l = r then .eq else .gt

def orderStrings (l r : String) : Ordering := if l < r then .lt else if l = r then .eq else .gt

def orderBooleans (l r : Bool) : Ordering :=
  if l = r then .eq else if l then .gt else .lt

/-- NaN has no order to any float. -/
def orderFloats? (l r : Float) : Option Ordering :=
  if l < r then some .lt else if l == r then some .eq else if l > r then some .gt else none

/-- Of operands without an order only `!=` holds. -/
def onFloats (operator : Comparison) (l r : Float) : Bool :=
  match orderFloats? l r with
  | some order => operator.holds order
  | none => operator = notEquals

/-- Ranges are equal or not, and have no order. -/
def apply (operator : Comparison) (left right : Value) : Outcome :=
  match left, right with
  | .integer l, .integer r => .value (.boolean (operator.holds (orderIntegers l r)))
  | .string l, .string r => .value (.boolean (operator.holds (orderStrings l r)))
  | .boolean l, .boolean r => .value (.boolean (operator.holds (orderBooleans l r)))
  | .range a b, .range c d =>
    match operator with
    | equals => .value (.boolean (a = c && b = d))
    | notEquals => .value (.boolean !(a = c && b = d))
    | _ => .invalid operator.symbol left right (.boolean false)
  | _, _ => match left.asFloat?, right.asFloat? with
    | some l, some r => .value (.boolean (operator.onFloats l r))
    | _, _ => .reported (.typeMatch left.type.name right.type.name) (.boolean false)

end Comparison

def Connective.apply (operator : Connective) (left right : Value) : Outcome :=
  match operator with
  | and => .value (.boolean (left.isTruthy && right.isTruthy))
  | or => .value (.boolean (left.isTruthy || right.isTruthy))

def BinaryOperator.apply (operator : BinaryOperator) (left right : Value) : Outcome :=
  match operator with
  | arithmetic o => o.apply left right
  | comparison o => o.apply left right
  | logical o => o.apply left right

/-- The operators before an operand, steps aside. A sign keeps what it cannot apply to. -/
def UnaryOperator.apply (operator : UnaryOperator) (operand : Value) : Outcome :=
  match operator, operand with
  | .not, v => .value (.boolean !v.isTruthy)
  | .negate, .integer n => .value (.integer (-n))
  | .negate, .float x => .value (.float (-x))
  | _, .integer n => .value (.integer n)
  | _, .float x => .value (.float x)
  | o, v => .invalid o.symbol v v v

/-- A number one up or down; none for other values. -/
def Step.apply? (step : Step) : Value → Option Value
  | .integer n => some (.integer (n + step.delta))
  | .float x => some (.float (x + if step.isIncrement then 1 else -1))
  | _ => none

end ScriptLang
