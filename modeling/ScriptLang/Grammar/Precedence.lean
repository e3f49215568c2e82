import ScriptLang.Token
import ScriptLang.Tree.Operators

/-!
# Binding powers

How tightly each operator binds, and what each kind of token can begin. An
operator extends the operand on its left only where it binds tighter than the
place asks for, so operators of equal power group to the left.
-/

namespace ScriptLang

inductive BindingPower where
  | default | logicalOr | logicalAnd | equality | relational | range | additive
  | multiplicative | unary | postfixed | call | primary
  deriving DecidableEq

namespace BindingPower

/-- The place in the order, loosest first. -/
def rank (p : BindingPower) : Nat := p.ctorIdx

instance : LT BindingPower := ⟨fun p q => p.rank < q.rank⟩

instance : LE BindingPower := ⟨fun p q => p.rank ≤ q.rank⟩

instance (p q : BindingPower) : Decidable (p < q) := inferInstanceAs (Decidable (p.rank < q.rank))

instance (p q : BindingPower) : Decidable (p ≤ q) := inferInstanceAs (Decidable (p.rank ≤ q.rank))

end BindingPower

namespace BinaryOperator

def bindingPower : BinaryOperator → BindingPower
  | .logical .or => .logicalOr
  | .logical .and => .logicalAnd
  | .comparison .equals | .comparison .notEquals => .equality
  | .comparison _ => .relational
  | .arithmetic .add | .arithmetic .subtract => .additive
  | .arithmetic _ => .multiplicative

end BinaryOperator

namespace TokenKind

/-- The operator a token stands for between two operands. -/
def binaryOperator? : TokenKind → Option BinaryOperator
  | .plus => some (.arithmetic .add)
  | .dash => some (.arithmetic .subtract)
  | .star => some (.arithmetic .multiply)
  | .slash => some (.arithmetic .divide)
  | .percent => some (.arithmetic .modulo)
  | .less => some (.comparison .less)
  | .lessEquals => some (.comparison .lessEquals)
  | .greater => some (.comparison .greater)
  | .greaterEquals => some (.comparison .greaterEquals)
  | .equals => some (.comparison .equals)
  | .notEquals => some (.comparison .notEquals)
  | .and => some (.logical .and)
  | .or => some (.logical .or)
  | _ => none

/-- The operator a token stands for before an operand. -/
def prefixOperator? : TokenKind → Option UnaryOperator
  | .not => some .not
  | .dash => some .negate
  | .plus => some .plus
  | .plusPlus => some (.step .preIncrement)
  | .minusMinus => some (.step .preDecrement)
  | _ => none

/-- The step a token stands for behind an operand. -/
def postfixStep? : TokenKind → Option Step
  | .plusPlus => some .postIncrement
  | .minusMinus => some .postDecrement
  | _ => none

/-- The assignment a token stands for behind a name. -/
def assignOperator? : TokenKind → Option AssignOperator
  | .assignment => some .set
  | .plusEquals => some (.combine .add)
  | .minusEquals => some (.combine .subtract)
  | .starEquals => some (.combine .multiply)
  | .slashEquals => some (.combine .divide)
  | .percentEquals => some (.combine .modulo)
  | _ => none

/-- How tightly a token binds behind an operand, `default` if it cannot stand there. -/
def bindingPower (k : TokenKind) : BindingPower :=
  match k with
  | .dotDot | .untilWord | .downToWord | .stepWord => .range
  | .plusPlus | .minusMinus => .postfixed
  | .openParen => .call
  | _ => match k.binaryOperator? with
    | some o => o.bindingPower
    | none => .default

/-- Whether a token can extend an operand on its left. -/
def extendsOperand (k : TokenKind) : Bool := k.bindingPower != .default

/-- Whether a token can begin an operand. -/
def beginsOperand : TokenKind → Bool
  | .integer | .float | .string | .trueWord | .falseWord | .identifier => true
  | .openParen | .runWord => true
  | k => k.prefixOperator?.isSome

/-- Whether a token begins a statement that need not be an expression. -/
def beginsStatement : TokenKind → Bool
  | .varWord | .valWord | .funWord | .ifWord | .whileWord | .doWord | .forWord => true
  | .returnWord | .breakWord | .continueWord | .printWord | .printlnWord => true
  | .openCurly | .identifier | .plusPlus | .minusMinus => true
  | _ => false

end TokenKind

end ScriptLang
