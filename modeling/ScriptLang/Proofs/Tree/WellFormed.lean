import ScriptLang.Proofs.Tree.Nodes

/-!
# Well-formed trees

The types of trees admit more than the grammar makes. What it makes lacks nothing: a
`for` has a range to run over, an assignment has a value unless it steps, and a
declaration tells its type or has a value to tell it.
-/

namespace ScriptLang

/-- A range does not both leave out its stop and descend. -/
def Expr.WellFormed : Expr → Prop
  | .range _ _ excludesStop descending _ _ => ¬ (excludesStop ∧ descending)
  | _ => True

def Stmt.WellFormed : Stmt → Prop
  | .declare _ _ type value _ => type.isSome ∨ value.isSome
  | .assign _ operator value _ => value.isNone ↔ operator.isStep
  | .forLoop _ range _ _ => range.ungroup.isRange
  | _ => True

def wellFormed : NodeProperty := ⟨Expr.WellFormed, Stmt.WellFormed⟩

variable {P : Position → Prop}

/-- Every node starts at a position with a property. -/
def positioned (P : Position → Prop) : NodeProperty :=
  ⟨fun e => P e.span.start, fun b => P b.span.start⟩

theorem start_of_positioned {e : Expr} (h : (positioned P).InExpr e) : P e.span.start :=
  NodeProperty.expr_of_inExpr h

/-- Every node is well-formed and starts at a position with a property. -/
def wellPlaced (P : Position → Prop) : NodeProperty := wellFormed.and (positioned P)

theorem start_of_wellPlaced {e : Expr} (h : (wellPlaced P).InExpr e) : P e.span.start :=
  (NodeProperty.expr_of_inExpr h).2

/-- If no position is excluded, no more is asked than that the tree is well-formed. -/
theorem wellPlaced_of_wellFormed (hP : ∀ position, P position) {p : Program}
    (h : wellFormed.InProgram p) : (wellPlaced P).InProgram p :=
  NodeProperty.inStmts_mono (q := wellPlaced P) (fun _ he => ⟨he, hP _⟩)
    (fun _ hb => ⟨hb, hP _⟩) _ h

end ScriptLang
