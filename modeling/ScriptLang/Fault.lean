import ScriptLang.Source.Position
import ScriptLang.Text.Quoted

/-!
# Faults

A fault is a cause and the position it arose at. Some faults end the work, others
are collected as diagnostics beside its result. Every cause has a name, a
sentence for messages and mostly a tip for reports; no other module words one.
-/

namespace ScriptLang

inductive Cause where
  | unrecognisedToken (token : String)
  | unexpectedToken (token : String)
  | unexpectedTokenDetailed (token : String) (expectation : String)
  | numberParse (token : String)
  | unknownType (name : String)
  | expectedExplicitValue
  | variableNotDeclared (name : String)
  | valReassignment (name : String)
  | functionNotDeclared (name : String)
  | functionAlreadyDeclared (name : String)
  | unexpectedArguments (name : String) (expected received : Nat)
  | missingArguments (name : String) (expected received : Nat)
  | typeMatch (expected received : String)
  | invalidOperands (operator left right : String)
  | divisionByZero
  | moduloByZero
  | zeroStep
  | negativeStep (step : Int64)
  | expectedRange
  | missingMain
  deriving DecidableEq

namespace Cause

def name : Cause → String
  | unrecognisedToken _ => "UnrecognisedToken"
  | unexpectedToken _ => "UnexpectedToken"
  | unexpectedTokenDetailed .. => "UnexpectedTokenDetailed"
  | numberParse _ => "NumberParseError"
  | unknownType _ => "UnknownType"
  | expectedExplicitValue => "ExpectedExplicitValue"
  | variableNotDeclared _ => "VariableNotDeclared"
  | valReassignment _ => "ValReassignment"
  | functionNotDeclared _ => "FunctionNotDeclared"
  | functionAlreadyDeclared _ => "FunctionAlreadyDeclared"
  | unexpectedArguments .. => "UnexpectedArguments"
  | missingArguments .. => "MissingArguments"
  | typeMatch .. => "TypeMatchError"
  | invalidOperands .. => "InvalidOperands"
  | divisionByZero => "DivisionByZero"
  | moduloByZero => "ModuloByZero"
  | zeroStep => "ZeroStep"
  | negativeStep _ => "NegativeStep"
  | expectedRange => "ExpectedRange"
  | missingMain => "MissingMain"

/-- What happened, with the texts involved in quotes. -/
def sentence : Cause → String
  | unrecognisedToken t => s!"unrecognised token: {Text.quoted t}"
  | unexpectedToken t => s!"unexpected token: {Text.quoted t}"
  | unexpectedTokenDetailed t e => s!"unexpected token ({Text.quoted e}): {Text.quoted t}"
  | numberParse t => s!"error parsing number: {Text.quoted t}"
  | unknownType n => s!"unknown type: {Text.quoted n}"
  | expectedExplicitValue => "expected explicit value when no type is given"
  | variableNotDeclared v => s!"variable {Text.quoted v} not declared"
  | valReassignment v => s!"val {Text.quoted v} cannot be reassigned"
  | functionNotDeclared f => s!"function {Text.quoted f} not declared"
  | functionAlreadyDeclared f => s!"function {Text.quoted f} already declared"
  | unexpectedArguments f e r =>
    s!"too many arguments to {Text.quoted f}: expected {e}, received {r}"
  | missingArguments f e r =>
    s!"missing arguments to {Text.quoted f}: expected {e}, received {r}"
  | typeMatch e r => s!"types do not match: expected {Text.quoted e}, received {Text.quoted r}"
  | invalidOperands o l r =>
    s!"invalid operands for {Text.quoted o}: {Text.quoted l} and {Text.quoted r}"
  | divisionByZero => "division by zero"
  | moduloByZero => "modulo by zero"
  | zeroStep => "range step of zero"
  | negativeStep s => s!"negative range step: {s.toInt}"
  | expectedRange => "expected a range expression"
  | missingMain => "no main function declared"

/-- What to do about it; only an unrecognised token speaks for itself. -/
def tip? : Cause → Option String
  | unrecognisedToken _ => none
  | unexpectedToken t => some s!"Unexpected token: `{t}`"
  | unexpectedTokenDetailed t e => some s!"Unexpected token: `{t}`, {e}"
  | numberParse t => some s!"Invalid number: `{t}`, is it above the integer limit?"
  | unknownType n =>
    some s!"Unknown type `{n}`, expected one of Int, Float, String, Boolean, Unit"
  | expectedExplicitValue => some "Expected explicit value when no type is given"
  | variableNotDeclared v => some s!"Variable `{v}` not declared"
  | valReassignment v => some s!"`{v}` is a val and cannot be reassigned, declare it with var"
  | functionNotDeclared f => some s!"Function `{f}` not declared"
  | functionAlreadyDeclared f =>
    some s!"Function `{f}` already declared, the last declaration wins"
  | unexpectedArguments f e r | missingArguments f e r =>
    some s!"`{f}` expects {e} arguments, received {r}"
  | typeMatch e r => some s!"Expected type `{e}`, received `{r}`"
  | invalidOperands o l r => some s!"Operator `{o}` cannot be applied to `{l}` and `{r}`"
  | divisionByZero | moduloByZero => some "The right operand evaluated to zero"
  | zeroStep => some "A range step must be greater than zero"
  | negativeStep s =>
    some s!"A range step must be greater than zero, found {s.toInt}; use downTo to count down"
  | expectedRange => some "A for loop iterates over `a..b`, `a until b` or `a downTo b`"
  | missingMain => some "Declare an entry point with `fun main() \x7b \x7d`"

end Cause

structure Fault where
  cause : Cause
  position : Position
  deriving DecidableEq

/-- The one-line form: name, position and sentence. -/
def Fault.message (f : Fault) : String :=
  s!"{f.cause.name} at {f.position.describe}: {f.cause.sentence}"

end ScriptLang
