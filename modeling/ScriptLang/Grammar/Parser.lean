import ScriptLang.Grammar.Statement

/-!
# From tokens to program trees

Ties the rules together. Every rule called from another runs on one unit of fuel
less; `Cursor.fuel` is enough for all of them, so the rules below the knot show
none.
-/

namespace ScriptLang

namespace Grammar

open ScriptLang.Parser

/-- Consumes semicolons. -/
def semicolons : Nat → Parser Unit
  | 0 => outOfFuel
  | n + 1 => do if ← eat .semicolon then semicolons n

/-- The parameters of a function. -/
def parameters : Nat → Parser (List Parameter)
  | 0 => outOfFuel
  | n + 1 => separated parameter (parameters n)

mutual

/-- An expression that binds tighter than `power`. -/
def expression : Nat → BindingPower → Parser Expr
  | 0, _ => outOfFuel
  | n + 1, power => do
    let left ← operand (expression n) (statements n .closeCurly)
    extended n power left

/-- Extends `left` while an operator binds tighter than `power`. -/
def extended : Nat → BindingPower → Expr → Parser Expr
  | 0, _, _ => outOfFuel
  | n + 1, power, left => do
    if power < (← current).kind.bindingPower then
      let wider ← continuation (expression n) (arguments n) left
      extended n power wider
    else
      return left

/-- The arguments of a call. -/
def arguments : Nat → Parser (List Expr)
  | 0 => outOfFuel
  | n + 1 => separated (expression n .default) (arguments n)

/-- A statement and the semicolons behind it. -/
def statement : Nat → Parser Stmt
  | 0 => outOfFuel
  | n + 1 => do
    let s ← anyStatement (expression n .default) (statement n) (statements n .closeCurly)
      (parameters n)
    semicolons n
    return s

/-- Statements up to a token of kind `close`, which is left. -/
def statements : Nat → TokenKind → Parser (List Stmt)
  | 0, _ => outOfFuel
  | n + 1, close => do
    if (← current).kind = close then return []
    else if ← eat .semicolon then statements n close
    else
      let first ← statement n
      return first :: (← statements n close)

end

end Grammar

namespace Parser

/-- Runs a rule on the fuel its cursor provides. -/
def fueled {α : Type} (rule : Nat → Parser α) : Parser α := fun c => rule c.fuel c

def expression (power : BindingPower) : Parser Expr := fueled (Grammar.expression · power)

def statement : Parser Stmt := fueled Grammar.statement

def block : Parser Block := fueled fun n => Grammar.block (Grammar.statements n .closeCurly)

end Parser

/-- The program a list of tokens spells, up to its first end of the file. -/
def Program.ofTokens (tokens : List Token) (file : String) : Except Halt Program :=
  match Parser.fueled (Grammar.statements · .eof) (Cursor.ofTokens tokens file) with
  | .ok body c => .ok ⟨body, ⟨.origin file, c.position⟩⟩
  | .error halt _ => .error halt

end ScriptLang
