import ScriptLang.Fault

/-!
# Ways to stop early

A computation that is bounded by fuel stops early in one of two ways, and keeps
them apart: a fault is an answer, running out of fuel is none.
-/

namespace ScriptLang

inductive Halt where
  | fault (fault : Fault)
  | outOfFuel
  deriving DecidableEq

end ScriptLang
