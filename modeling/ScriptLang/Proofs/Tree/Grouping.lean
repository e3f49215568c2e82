import ScriptLang.Proofs.Tree.Nodes
import ScriptLang.Proofs.Tree.Terminal

/-!
# Grouping without parentheses

An operator node needs no parentheses around its operands if they bind tightly
enough. Operators of equal power group to the left, so a left operand may bind as
tightly as its node and a right operand has to bind tighter.
-/

namespace ScriptLang

namespace Expr

/-- How tightly the outermost operator of an expression binds. -/
def power : Expr → BindingPower
  | binary o _ _ _ => o.bindingPower
  | unary o _ _ => if o.isBehind then .postfixed else .unary
  | range .. => .range
  | call .. => .call
  | _ => .primary

/-- The operands of an expression bind tightly enough for it. -/
def Groups : Expr → Prop
  | binary o l r _ => o.bindingPower ≤ l.power ∧ o.bindingPower < r.power
  | unary o e _ => (if o.isBehind then .postfixed else .unary) ≤ e.power
  | range a b _ _ c _ =>
    .range ≤ a.power ∧ .range < b.power ∧ ∀ s, c = some s → .range < s.power
  | _ => True

end Expr

/-- All operators of a tree group without parentheses. -/
def grouping : NodeProperty := ⟨Expr.Groups, fun _ => True⟩

namespace BindingPower

theorem le_primary (p : BindingPower) : p ≤ .primary := by cases p <;> decide

theorem lt_of_lt_of_le {p q r : BindingPower} (h : p < q) (h' : q ≤ r) : p < r :=
  Nat.lt_of_lt_of_le h h'

theorem le_of_lt {p q : BindingPower} (h : p < q) : p ≤ q := Nat.le_of_lt h

theorem lt_or_eq_of_le {p q : BindingPower} (h : p ≤ q) : p < q ∨ p = q := by
  rcases Nat.lt_or_eq_of_le h with h | h
  · exact .inl h
  · cases p <;> cases q <;> first | exact .inr rfl | exact absurd h (by decide)

theorem not_lt {p q : BindingPower} : ¬ p < q ↔ q ≤ p := Nat.not_lt

end BindingPower

namespace TokenKind

theorem bindingPower_of_binaryOperator {k : TokenKind} {o : BinaryOperator}
    (h : k.binaryOperator? = some o) : k.bindingPower = o.bindingPower := by
  cases k <;> simp_all [binaryOperator?, bindingPower]

theorem bindingPower_of_postfixStep {k : TokenKind} {s : Step} (h : k.postfixStep? = some s) :
    k.bindingPower = .postfixed := by
  cases k <;> simp_all [postfixStep?, bindingPower]

/-- Only a call binds tighter than a step behind an operand. -/
theorem bindingPower_le_postfixed (k : TokenKind) : k.bindingPower ≤ .postfixed ∨ k = .openParen := by
  cases k <;> decide

theorem bindingPower_le_call (k : TokenKind) : k.bindingPower ≤ .call := by
  cases k <;> decide

theorem token_of_binaryOperator {k : TokenKind} {o : BinaryOperator}
    (h : k.binaryOperator? = some o) : o.token = k := by
  cases k <;> simp [binaryOperator?] at h <;> subst h <;> rfl

theorem token_of_prefixOperator {k : TokenKind} {o : UnaryOperator}
    (h : k.prefixOperator? = some o) : o.token = k ∧ o.isBehind = false := by
  cases k <;> simp [prefixOperator?] at h <;> subst h <;> exact ⟨rfl, rfl⟩

theorem token_of_postfixStep {k : TokenKind} {s : Step} (h : k.postfixStep? = some s) :
    s.token = k ∧ s.isBefore = false := by
  cases k <;> simp [postfixStep?] at h <;> subst h <;> exact ⟨rfl, rfl⟩

theorem token_of_assignOperator {k : TokenKind} {o : AssignOperator}
    (h : k.assignOperator? = some o) : o.token = k ∧ o.isStep = false := by
  cases k <;> simp [assignOperator?] at h <;> subst h <;> exact ⟨rfl, rfl⟩

end TokenKind

/-- Every binary operator binds looser than the operators before an operand. -/
theorem BinaryOperator.bindingPower_lt_unary (o : BinaryOperator) : o.bindingPower < .unary := by
  rcases o with (_ | _ | _ | _ | _) | (_ | _ | _ | _ | _ | _) | (_ | _) <;> decide

/-- Every expression stands where nothing is asked of it. -/
theorem Expr.default_lt_power (e : Expr) : .default < e.power := by
  cases e with
  | binary o =>
    change .default < o.bindingPower
    rcases o with (_ | _ | _ | _ | _) | (_ | _ | _ | _ | _ | _) | (_ | _) <;> decide
  | unary o =>
    by_cases h : o.isBehind <;> simp only [power, h] <;> decide
  | range => exact (by decide : BindingPower.default < .range)
  | call => exact (by decide : BindingPower.default < .call)
  | _ => exact (by decide : BindingPower.default < .primary)

/-! ## Tokens of operators -/

theorem BinaryOperator.binaryOperator?_token (o : BinaryOperator) :
    o.token.binaryOperator? = some o := by
  rcases o with (_ | _ | _ | _ | _) | (_ | _ | _ | _ | _ | _) | (_ | _) <;> rfl

theorem UnaryOperator.prefixOperator?_token {o : UnaryOperator} (h : o.isBehind = false) :
    o.token.prefixOperator? = some o := by
  rcases o with _ | _ | _ | (_ | _ | _ | _) <;> first | rfl | cases h

theorem Step.postfixStep?_token {s : Step} (h : s.isBefore = false) :
    s.token.postfixStep? = some s := by
  cases s <;> first | rfl | cases h

theorem AssignOperator.assignOperator?_token {o : AssignOperator} (h : o.isStep = false) :
    o.token.assignOperator? = some o := by
  rcases o with _ | (_ | _ | _ | _ | _) | s <;> first | rfl | cases h

theorem bindingPower_rangeToken (x d : Bool) : (rangeToken x d).bindingPower = .range := by
  cases x <;> cases d <;> rfl

/-- The token of a range tells whether it excludes its stop and whether it descends,
unless it does both. -/
theorem rangeToken_eq {x d : Bool} (h : ¬ (x ∧ d)) :
    (rangeToken x d == .untilWord) = x ∧ (rangeToken x d == .downToWord) = d := by
  cases x <;> cases d <;> first | exact ⟨rfl, rfl⟩ | exact absurd ⟨rfl, rfl⟩ h

end ScriptLang
