import ScriptLang.Number.Shortest
import ScriptLang.Tree.Types

/-!
# Values

What expressions evaluate to. The constructor is the type, so a value is never
read as one of another type.
-/

namespace ScriptLang

inductive Value where
  | integer (value : Int64)
  | float (value : Float)
  | boolean (value : Bool)
  /-- Bounds only; direction and step belong to the loop that uses the range. -/
  | range (start stop : Int64)
  | string (value : String)

namespace Value

def type : Value → ValueType
  | integer _ => .integer
  | float _ => .float
  | boolean _ => .boolean
  | range .. => .range
  | string _ => .string

/-- What a variable of a type holds before anything is assigned. -/
def zero : DeclaredType → Value
  | .int | .unit => integer 0
  | .float => float 0
  | .string => string ""
  | .boolean => boolean false

def isTruthy : Value → Bool
  | integer n => n != 0
  | float x => x != 0
  | boolean b => b
  | range .. => true
  | string s => !s.isEmpty

/-- A numeric value as a float. -/
def asFloat? : Value → Option Float
  | integer n => some (Number.ofInteger n)
  | float x => some x
  | _ => none

/-- A numeric value as an integer, cut toward zero. -/
def asInteger? : Value → Option Int64
  | integer n => some n
  | float x => some (Number.truncate x)
  | _ => none

/-- The value as a variable of a type stores it: integers become floats in Float
variables, and nothing else changes. -/
def widen : Value → DeclaredType → Value
  | integer n, .float => float (Number.ofInteger n)
  | v, _ => v

/-- The value converted to a type, none if it has no place there. Beyond widening,
floats are cut to integers. -/
def convert? : Value → DeclaredType → Option Value
  | integer n, .float => some (float (Number.ofInteger n))
  | float x, .int => some (integer (Number.truncate x))
  | integer n, .int | integer n, .unit => some (integer n)
  | float x, .float => some (float x)
  | boolean b, .boolean => some (boolean b)
  | string s, .string => some (string s)
  | _, _ => none

/-- A float as a program prints it. -/
def floatText (x : Float) : String := Number.decimal "Infinity" x

/-- The value as a program prints it. -/
def text : Value → String
  | integer n => toString n.toInt
  | float x => floatText x
  | boolean b => if b then "true" else "false"
  | range a b => s!"{a.toInt}..{b.toInt}"
  | string s => s

end Value

end ScriptLang
