/-!
# Operators

Binary operators come in three families that differ in operand and result types.
Steps are the increments and decrements.
-/

namespace ScriptLang

inductive Arithmetic where
  | add | subtract | multiply | divide | modulo
  deriving DecidableEq

inductive Comparison where
  | less | lessEquals | greater | greaterEquals | equals | notEquals
  deriving DecidableEq

inductive Connective where
  | and | or
  deriving DecidableEq

inductive BinaryOperator where
  | arithmetic (operator : Arithmetic)
  | comparison (operator : Comparison)
  | logical (operator : Connective)
  deriving DecidableEq

inductive Step where
  | preIncrement | preDecrement | postIncrement | postDecrement
  deriving DecidableEq

inductive UnaryOperator where
  | not | negate | plus
  | step (step : Step)
  deriving DecidableEq

inductive AssignOperator where
  | set
  | combine (operator : Arithmetic)
  | step (step : Step)
  deriving DecidableEq

def Arithmetic.symbol : Arithmetic → String
  | add => "+"
  | subtract => "-"
  | multiply => "*"
  | divide => "/"
  | modulo => "%"

def Comparison.symbol : Comparison → String
  | less => "<"
  | lessEquals => "<="
  | greater => ">"
  | greaterEquals => ">="
  | equals => "=="
  | notEquals => "!="

def Connective.symbol : Connective → String
  | and => "&&"
  | or => "||"

namespace BinaryOperator

def symbol : BinaryOperator → String
  | arithmetic o => o.symbol
  | comparison o => o.symbol
  | logical o => o.symbol

def isComparison : BinaryOperator → Bool
  | comparison _ => true
  | _ => false

def isLogical : BinaryOperator → Bool
  | logical _ => true
  | _ => false

end BinaryOperator

namespace Step

def isIncrement : Step → Bool
  | preIncrement | postIncrement => true
  | preDecrement | postDecrement => false

/-- Whether the step stands before its operand, and so yields the new value. -/
def isBefore : Step → Bool
  | preIncrement | preDecrement => true
  | postIncrement | postDecrement => false

/-- What the step adds to an integer. -/
def delta (s : Step) : Int64 := if s.isIncrement then 1 else -1

def symbol (s : Step) : String := if s.isIncrement then "++" else "--"

end Step

namespace UnaryOperator

def symbol : UnaryOperator → String
  | not => "!"
  | negate => "-"
  | plus => "+"
  | step s => s.symbol

end UnaryOperator

def AssignOperator.isStep : AssignOperator → Bool
  | step _ => true
  | _ => false

end ScriptLang
