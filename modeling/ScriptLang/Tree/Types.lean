/-!
# Types

The types a program can write down, and the types of values. They differ in two
places: `Unit` results are integers, and ranges have no written type.
-/

namespace ScriptLang

inductive DeclaredType where
  | int | float | string | boolean | unit
  deriving DecidableEq, Inhabited

inductive ValueType where
  | integer | float | boolean | range | string
  deriving DecidableEq, Inhabited

namespace DeclaredType

def name : DeclaredType → String
  | int => "Int"
  | float => "Float"
  | string => "String"
  | boolean => "Boolean"
  | unit => "Unit"

def all : List DeclaredType := [int, float, string, boolean, unit]

/-- The type of a given name. -/
def ofName? (s : String) : Option DeclaredType := all.find? (·.name == s)

/-- The type of the values of a declared type. -/
def valueType : DeclaredType → ValueType
  | int | unit => .integer
  | float => .float
  | string => .string
  | boolean => .boolean

end DeclaredType

namespace ValueType

def name : ValueType → String
  | integer => "Integer"
  | float => "Float"
  | boolean => "Boolean"
  | range => "Range"
  | string => "String"

def all : List ValueType := [integer, float, boolean, range, string]

def isNumeric : ValueType → Bool
  | integer | float => true
  | _ => false

/-- The type a variable gets from a value of this type when none is written. -/
def declaredType : ValueType → DeclaredType
  | integer | range => .int
  | float => .float
  | boolean => .boolean
  | string => .string

end ValueType

end ScriptLang
