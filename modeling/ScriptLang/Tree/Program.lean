import ScriptLang.Source.Position
import ScriptLang.Tree.Operators
import ScriptLang.Tree.Types

/-!
# Program trees

Expressions, statements and programs, each with the span it was read from. The
types admit more than the grammar produces: a missing value of an assignment, or
a `for` over what is no range, are ruled out by the grammar and not here.
-/

namespace ScriptLang

structure Parameter where
  name : String
  type : DeclaredType
  deriving DecidableEq

mutual

inductive Expr where
  | integer (value : Int64) (span : Span)
  | float (value : Float) (span : Span)
  | boolean (value : Bool) (span : Span)
  | string (value : String) (span : Span)
  | name (name : String) (span : Span)
  | binary (operator : BinaryOperator) (left right : Expr) (span : Span)
  | unary (operator : UnaryOperator) (operand : Expr) (span : Span)
  /-- Parentheses; they only group. -/
  | group (inner : Expr) (span : Span)
  | call (callee : String) (arguments : List Expr) (span : Span)
  | range (start stop : Expr) (excludesStop descending : Bool) (step : Option Expr) (span : Span)
  /-- A block used as an expression, valued by its last statement. -/
  | run (block : Block) (span : Span)

structure Block where
  body : List Stmt
  span : Span

structure Function where
  name : String
  parameters : List Parameter
  returns : DeclaredType
  body : Block
  span : Span

inductive Stmt where
  | declare (name : String) (constant : Bool) (type : Option DeclaredType) (value : Option Expr)
      (span : Span)
  | assign (target : String) (operator : AssignOperator) (value : Option Expr) (span : Span)
  | print (value : Option Expr) (newline : Bool) (span : Span)
  | block (block : Block)
  | branch (condition : Expr) (thenBody : Stmt) (elseBody : Option Stmt) (span : Span)
  | whileLoop (condition : Expr) (body : Stmt) (span : Span)
  | doWhile (body : Stmt) (condition : Expr) (span : Span)
  | forLoop (counter : String) (range : Expr) (body : Stmt) (span : Span)
  | function (function : Function)
  | return (value : Option Expr) (span : Span)
  | break (span : Span)
  | continue (span : Span)
  | expression (value : Expr)

end

namespace Expr

def span : Expr → Span
  | integer _ s | float _ s | boolean _ s | string _ s | name _ s => s
  | binary _ _ _ s | unary _ _ s | group _ s | call _ _ s | range _ _ _ _ _ s | run _ s => s

/-- The expression inside any number of parentheses. -/
def ungroup : Expr → Expr
  | group inner _ => inner.ungroup
  | e => e

/-- The name, if the expression is one. -/
def name? : Expr → Option String
  | name n _ => some n
  | _ => none

def isRange : Expr → Bool
  | range .. => true
  | _ => false

end Expr

namespace Stmt

def span : Stmt → Span
  | declare _ _ _ _ s | assign _ _ _ s | print _ _ s | branch _ _ _ s => s
  | whileLoop _ _ s | doWhile _ _ s | forLoop _ _ _ s => s
  | .return _ s | .break s | .continue s => s
  | block b => b.span
  | function f => f.span
  | expression e => e.span

/-- The function, if the statement declares one. -/
def function? : Stmt → Option Function
  | function f => some f
  | _ => none

end Stmt

structure Program where
  body : List Stmt
  span : Span

namespace Program

/-- The functions declared at the top level, in order. -/
def functions (p : Program) : List Function := p.body.filterMap Stmt.function?

/-- The other statements at the top level, in order. -/
def topLevel (p : Program) : List Stmt := p.body.filter fun s => s.function?.isNone

end Program

end ScriptLang
