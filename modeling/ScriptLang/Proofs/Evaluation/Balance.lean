import ScriptLang.Proofs.Environment
import ScriptLang.Proofs.Evaluation.Invariant

/-!
# Evaluation leaves scopes and frames as it found them

Whatever way an expression, a statement or a call ends, each scope and frame it
entered has been left, no function has been added, and what was printed and reported
before is still there.
-/

namespace ScriptLang

/-- The running call has a scope, or it is the top level. -/
def Evaluation.Framed (s : Evaluation) : Prop := s.frameBase < s.environment.depth

/-- As many scopes, the same frame and functions, and no less output or diagnostics. -/
structure Evaluation.Balanced (s t : Evaluation) : Prop where
  depth : t.environment.depth = s.environment.depth
  frameBase : t.frameBase = s.frameBase
  functions : t.functions = s.functions
  output : ∃ text, t.output = s.output ++ text
  diagnostics : ∃ faults, t.diagnostics = s.diagnostics ++ faults

namespace Evaluation

variable {s t u : Evaluation}

namespace Balanced

theorem refl (s : Evaluation) : Balanced s s :=
  ⟨rfl, rfl, rfl, ⟨"", by simp⟩, ⟨[], by simp⟩⟩

theorem trans (h : Balanced s t) (h' : Balanced t u) : Balanced s u := by
  obtain ⟨a, ha⟩ := h.output
  obtain ⟨b, hb⟩ := h'.output
  obtain ⟨fs, hf⟩ := h.diagnostics
  obtain ⟨gs, hg⟩ := h'.diagnostics
  refine ⟨h'.depth.trans h.depth, h'.frameBase.trans h.frameBase,
    h'.functions.trans h.functions, ⟨a ++ b, ?_⟩, ⟨fs ++ gs, ?_⟩⟩
  · rw [hb, ha, String.append_assoc]
  · rw [hg, hf, List.append_assoc]

theorem framed (h : Balanced s t) (hs : s.Framed) : t.Framed := by
  unfold Framed
  rw [h.frameBase, h.depth]
  exact hs

/-- A change of the environment that keeps its scopes. -/
theorem of_depth {e : Environment} (h : e.depth = s.environment.depth) :
    Balanced s { s with environment := e } :=
  ⟨h, rfl, rfl, ⟨"", by simp⟩, ⟨[], by simp⟩⟩

end Balanced

theorem Framed.enterScope (h : s.Framed) : s.enterScope.Framed :=
  Nat.lt_succ_of_lt h

theorem framed_enterFrame (s : Evaluation) : s.enterFrame.Framed := by
  change s.environment.depth + 1 - 1 < s.environment.depth + 1
  omega

theorem Framed.balanced_leaveScope (h : s.Framed) (hb : Balanced s.enterScope t) :
    Balanced s t.leaveScope := by
  have hd : t.environment.depth = s.environment.depth + 1 := hb.depth
  have hpos : s.frameBase < s.environment.depth := h
  refine ⟨?_, hb.frameBase, hb.functions, hb.output, hb.diagnostics⟩
  change t.environment.pop.depth = _
  rw [Environment.depth_pop _ (by omega), hd]
  omega

theorem Framed.balanced_leaveFrame (h : s.Framed) (hb : Balanced s.enterFrame t) :
    Balanced s (t.leaveFrame s.frameBase) := by
  have hd : t.environment.depth = s.environment.depth + 1 := hb.depth
  have hpos : s.frameBase < s.environment.depth := h
  refine ⟨?_, rfl, hb.functions, hb.output, hb.diagnostics⟩
  change t.environment.pop.depth = _
  rw [Environment.depth_pop _ (by omega), hd]
  omega

end Evaluation

/-- From a framed state, evaluation ends in a balanced one. -/
def balance : Contract :=
  ⟨fun s t => s.Framed → s.Balanced t, fun s t => s.Framed → s.Balanced t⟩

open Evaluation in
theorem lawful_balance : balance.Lawful := by
  have hc : Eval.Composes fun s t => s.Framed → s.Balanced t :=
    ⟨fun s _ => Balanced.refl s, fun h h' hs => (h hs).trans (h' ((h hs).framed hs))⟩
  constructor
  · exact hc
  · exact hc
  · exact id
  · intro s fault _
    exact ⟨rfl, rfl, rfl, ⟨"", by simp⟩, ⟨[fault], rfl⟩⟩
  · intro s text _
    exact ⟨rfl, rfl, rfl, ⟨text, rfl⟩, ⟨[], by simp⟩⟩
  · intro s signals returned _
    exact ⟨rfl, rfl, rfl, ⟨"", by simp⟩, ⟨[], by simp⟩⟩
  · intro s name value e h _
    exact Balanced.of_depth (Environment.depth_update h)
  · intro s name value type mutable _
    exact Balanced.of_depth (Environment.depth_declare ..)
  · intro s t h hs
    exact hs.balanced_leaveScope (h hs.enterScope)
  · intro s t h hs
    exact hs.balanced_leaveFrame (h s.framed_enterFrame)

theorem invariant_framed : Eval.Invariant balance Evaluation.Framed where
  lawful := lawful_balance
  stmt := fun hb hs => (hb hs).framed hs
  scope := fun _ hs => hs.enterScope
  frame := fun s _ => s.framed_enterFrame

/-- From a framed state, every expression, statement and call ends in a balanced one,
however it ends; and whatever runs in between starts in a framed state. -/
theorem Evaluation.Framed.balanced {s : Evaluation} (h : s.Framed) (nesting laps : Nat) :
    (∀ e, s.Balanced ((Eval.evaluate (Eval.call nesting) laps e).after s)) ∧
    (∀ b, s.Balanced ((Eval.execute (Eval.call nesting) laps b).after s)) ∧
    (∀ name vs position, s.Balanced ((Eval.call nesting name vs position).after s)) ∧
    ∀ t t' s', Eval.Reaches t s t' s' → s'.Framed := by
  have hc := Eval.keeps_call lawful_balance nesting
  refine ⟨fun e => ?_, fun b => ?_, fun name vs position => ?_, fun t t' s' hr => ?_⟩
  · exact Eval.keeps_evaluate lawful_balance hc laps e s h
  · exact Eval.keeps_execute lawful_balance hc laps b s h
  · exact hc name vs position s h
  · exact hr.invariant invariant_framed h

/-- A block that returns, at the top level. -/
theorem Evaluation.Framed.balanced_new :
    Evaluation.new.Framed ∧ Evaluation.new.Balanced ((Eval.execute (Eval.call 1) 1
      (.block ⟨[.declare "x" true none (some (.integer 1 default)) default,
        .return (some (.name "x" default)) default], default⟩)).after .new) := by
  have h : Evaluation.new.Framed := by
    change 0 < 1
    decide
  exact ⟨h, (Evaluation.Framed.balanced h 1 1).2.1 _⟩

end ScriptLang
