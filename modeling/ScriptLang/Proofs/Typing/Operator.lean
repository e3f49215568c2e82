import ScriptLang.Codegen.Static
import ScriptLang.Value.Operation

/-!
# Types of operators

What an operator gives and what it objects to is decided by the types of its
operands alone. The operators on values follow these rules; only a division may
fail besides.
-/

namespace ScriptLang

/-- The faults of an objection, if there is one, at a position. -/
def faultsAt (objection : Option Cause) (position : Position) : List Fault :=
  objection.toList.map (⟨·, position⟩)

@[simp] theorem faultsAt_none (p : Position) : faultsAt none p = [] := rfl

namespace Arithmetic

/-- Texts are only joined, and numbers are all else there is arithmetic on. -/
def objection (operator : Arithmetic) (left right : ValueType) : Option Cause :=
  if operator = add && (left = .string || right = .string) || left.isNumeric && right.isNumeric
  then none
  else some (.invalidOperands operator.symbol left.name right.name)

end Arithmetic

namespace Comparison

/-- Operands of one type compare, as do numbers; ranges have no order. -/
def objection (operator : Comparison) (left right : ValueType) : Option Cause :=
  if left = .range && right = .range then
    if operator = equals || operator = notEquals then none
    else some (.invalidOperands operator.symbol left.name right.name)
  else if left = right || left.isNumeric && right.isNumeric then none
  else some (.typeMatch left.name right.name)

end Comparison

namespace BinaryOperator

def objection (operator : BinaryOperator) (left right : ValueType) : Option Cause :=
  match operator with
  | arithmetic o => o.objection left right
  | comparison o => o.objection left right
  | logical _ => none

def resultType (operator : BinaryOperator) (left right : ValueType) : ValueType :=
  match operator with
  | arithmetic o => o.staticType left right
  | comparison _ | logical _ => .boolean

end BinaryOperator

namespace UnaryOperator

/-- Signs are for numbers. -/
def objection (operator : UnaryOperator) (operand : ValueType) : Option Cause :=
  if operator = .not || operand.isNumeric then none
  else some (.invalidOperands operator.symbol operand.name operand.name)

def resultType (operator : UnaryOperator) (operand : ValueType) : ValueType :=
  match operator with
  | not => .boolean
  | _ => operand

end UnaryOperator

/-- Values convert to their own type, and numbers to each other. -/
def ValueType.conversionObjection (source target : ValueType) : Option Cause :=
  if source = target || source.isNumeric && target.isNumeric then none
  else some (.typeMatch target.declaredType.name source.name)

/-- An outcome that gives a value of a type, with an objection or without, or fails. -/
def Outcome.Follows (objection : Option Cause) (type : ValueType) : Outcome → Prop
  | value v => objection = none ∧ v.type = type
  | reported cause v => objection = some cause ∧ v.type = type
  | failed _ => True

namespace Arithmetic

theorem onIntegers_follows (operator : Arithmetic) (l r : Int64) :
    (operator.onIntegers l r).Follows none .integer := by
  cases operator with
  | add => exact ⟨rfl, rfl⟩
  | subtract => exact ⟨rfl, rfl⟩
  | multiply => exact ⟨rfl, rfl⟩
  | divide =>
    by_cases h : r = 0
    · rw [onIntegers, if_pos h]
      trivial
    · rw [onIntegers, if_neg h]
      exact ⟨rfl, rfl⟩
  | modulo =>
    by_cases h : r = 0
    · rw [onIntegers, if_pos h]
      trivial
    · rw [onIntegers, if_neg h]
      exact ⟨rfl, rfl⟩

theorem onNumbers_follows (operator : Arithmetic) (left right : Value)
    (h : ¬ (operator = add ∧ (left.type = .string ∨ right.type = .string))) :
    (operator.onNumbers left right).Follows (operator.objection left.type right.type)
      (operator.staticType left.type right.type) := by
  have ho : (operator = add && (left.type = .string || right.type = .string)) = false := by
    simpa using h
  unfold objection staticType
  rw [ho]
  cases left <;> cases right <;> first
    | exact onIntegers_follows operator _ _
    | exact ⟨rfl, rfl⟩

theorem apply_follows (operator : Arithmetic) (left right : Value) :
    (operator.apply left right).Follows (operator.objection left.type right.type)
      (operator.staticType left.type right.type) := by
  unfold apply
  split
  · exact ⟨rfl, rfl⟩
  · cases left <;> exact ⟨rfl, rfl⟩
  · next hl hr =>
    refine onNumbers_follows operator left right ?_
    rintro ⟨rfl, h | h⟩
    · cases left <;> cases h
      exact hl _ rfl rfl
    · cases right <;> cases h
      exact hr _ rfl rfl

end Arithmetic

namespace Comparison

theorem apply_follows (operator : Comparison) (left right : Value) :
    (operator.apply left right).Follows (operator.objection left.type right.type) .boolean := by
  cases left <;> cases right <;> first
    | exact ⟨rfl, rfl⟩
    | cases operator <;> exact ⟨rfl, rfl⟩

end Comparison

namespace BinaryOperator

theorem apply_follows (operator : BinaryOperator) (left right : Value) :
    (operator.apply left right).Follows (operator.objection left.type right.type)
      (operator.resultType left.type right.type) := by
  cases operator with
  | arithmetic o => exact o.apply_follows left right
  | comparison o => exact o.apply_follows left right
  | logical o => cases o <;> exact ⟨rfl, rfl⟩

end BinaryOperator

namespace UnaryOperator

theorem apply_follows (operator : UnaryOperator) (operand : Value) :
    (operator.apply operand).Follows (operator.objection operand.type)
      (operator.resultType operand.type) := by
  cases operator <;> cases operand <;> exact ⟨rfl, rfl⟩

end UnaryOperator

namespace Step

theorem type_of_apply? {step : Step} {v w : Value} (h : step.apply? v = some w) :
    w.type = v.type ∧ v.type.isNumeric = true := by
  cases v <;> cases h <;> exact ⟨rfl, rfl⟩

theorem not_isNumeric_of_apply? {step : Step} {v : Value} (h : step.apply? v = none) :
    v.type.isNumeric = false := by
  cases v <;> first | rfl | cases h

end Step

end ScriptLang
