import ScriptLang.Frame
import ScriptLang.Tree.Program

/-!
# What is known before code is generated

The types of initial values of globals, which fix the size of their cells, and
the float constants of a program.
-/

namespace ScriptLang

namespace Arithmetic

/-- The type of a result, by the types of the operands. -/
def staticType (operator : Arithmetic) (left right : ValueType) : ValueType :=
  if operator = add && (left = .string || right = .string) then .string
  else if left = .integer && right = .integer then .integer
  else if left.isNumeric && right.isNumeric then .float
  else .integer

end Arithmetic

section

variable (globals : NameMap Slot) (returns : NameMap DeclaredType)

mutual

/-- The type of an expression, as far as globals and functions tell. -/
def Expr.staticType : Expr → ValueType
  | .integer .. => .integer
  | .float .. => .float
  | .boolean .. => .boolean
  | .string .. => .string
  | .name n _ => match globals.find? n with
    | some slot => slot.type
    | none => .integer
  | .group inner _ => inner.staticType
  | .binary (.arithmetic o) left right _ => o.staticType left.staticType right.staticType
  | .binary .. => .boolean
  | .unary .not _ _ => .boolean
  | .unary _ operand _ => operand.staticType
  | .call callee _ _ => match returns.find? callee with
    | some type => type.valueType
    | none => .integer
  | .range .. => .range
  | .run ⟨body, _⟩ _ => lastStaticType body

/-- The type of the last statement, which counts if it is an expression. -/
def lastStaticType : List Stmt → ValueType
  | [] => .integer
  | [.expression e] => e.staticType
  | _ :: rest => lastStaticType rest

end

end

mutual

/-- The float constants of an expression, in the order of the text. -/
def Expr.floats : Expr → List Float
  | .integer .. | .boolean .. | .string .. | .name .. => []
  | .float x _ => [x]
  | .group inner _ => inner.floats
  | .binary _ left right _ => left.floats ++ right.floats
  | .unary _ operand _ => operand.floats
  | .call _ arguments _ => argumentFloats arguments
  | .range start stop _ _ step _ => start.floats ++ stop.floats ++ optionFloats step
  | .run ⟨body, _⟩ _ => bodyFloats body

def argumentFloats : List Expr → List Float
  | [] => []
  | e :: es => e.floats ++ argumentFloats es

def optionFloats : Option Expr → List Float
  | none => []
  | some e => e.floats

/-- The float constants of a statement. -/
def Stmt.floats : Stmt → List Float
  | .declare _ _ _ value _ => optionFloats value
  | .assign _ _ value _ => optionFloats value
  | .print value _ _ => optionFloats value
  | .block ⟨body, _⟩ => bodyFloats body
  | .branch condition thenBody elseBody _ =>
    condition.floats ++ thenBody.floats ++ optionBodyFloats elseBody
  | .whileLoop condition body _ => condition.floats ++ body.floats
  | .doWhile body condition _ => body.floats ++ condition.floats
  | .forLoop _ range body _ => range.floats ++ body.floats
  | .function ⟨_, _, _, ⟨body, _⟩, _⟩ => bodyFloats body
  | .return value _ => optionFloats value
  | .break _ | .continue _ => []
  | .expression e => e.floats

def optionBodyFloats : Option Stmt → List Float
  | none => []
  | some s => s.floats

def bodyFloats : List Stmt → List Float
  | [] => []
  | s :: rest => s.floats ++ bodyFloats rest

end

end ScriptLang
