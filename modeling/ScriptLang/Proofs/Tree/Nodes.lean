import ScriptLang.Tree.Program

/-!
# Properties of every node of a tree

A node property looks at one expression or one statement. It holds throughout a
tree if it holds of each expression and statement in it, the bodies of functions
and of `run` blocks included.
-/

namespace ScriptLang

structure NodeProperty where
  expr : Expr → Prop
  stmt : Stmt → Prop

namespace NodeProperty

variable (p : NodeProperty)

mutual

def InExpr : Expr → Prop
  | .integer n s => p.expr (.integer n s)
  | .float x s => p.expr (.float x s)
  | .boolean b s => p.expr (.boolean b s)
  | .string t s => p.expr (.string t s)
  | .name n s => p.expr (.name n s)
  | .binary o l r s => p.expr (.binary o l r s) ∧ InExpr l ∧ InExpr r
  | .unary o e s => p.expr (.unary o e s) ∧ InExpr e
  | .group e s => p.expr (.group e s) ∧ InExpr e
  | .call f es s => p.expr (.call f es s) ∧ InExprs es
  | .range a b x d c s => p.expr (.range a b x d c s) ∧ InExpr a ∧ InExpr b ∧ InOption c
  | .run ⟨body, t⟩ s => p.expr (.run ⟨body, t⟩ s) ∧ InStmts body

def InExprs : List Expr → Prop
  | [] => True
  | e :: es => InExpr e ∧ InExprs es

def InOption : Option Expr → Prop
  | none => True
  | some e => InExpr e

def InStmt : Stmt → Prop
  | .declare n c t v s => p.stmt (.declare n c t v s) ∧ InOption v
  | .assign n o v s => p.stmt (.assign n o v s) ∧ InOption v
  | .print v l s => p.stmt (.print v l s) ∧ InOption v
  | .block ⟨body, t⟩ => p.stmt (.block ⟨body, t⟩) ∧ InStmts body
  | .branch c a b s => p.stmt (.branch c a b s) ∧ InExpr c ∧ InStmt a ∧ InElse b
  | .whileLoop c b s => p.stmt (.whileLoop c b s) ∧ InExpr c ∧ InStmt b
  | .doWhile b c s => p.stmt (.doWhile b c s) ∧ InStmt b ∧ InExpr c
  | .forLoop n r b s => p.stmt (.forLoop n r b s) ∧ InExpr r ∧ InStmt b
  | .function ⟨n, ps, t, ⟨body, u⟩, s⟩ =>
    p.stmt (.function ⟨n, ps, t, ⟨body, u⟩, s⟩) ∧ InStmts body
  | .return v s => p.stmt (.return v s) ∧ InOption v
  | .break s => p.stmt (.break s)
  | .continue s => p.stmt (.continue s)
  | .expression e => p.stmt (.expression e) ∧ InExpr e

def InElse : Option Stmt → Prop
  | none => True
  | some s => InStmt s

def InStmts : List Stmt → Prop
  | [] => True
  | s :: rest => InStmt s ∧ InStmts rest

end

/-- The property holds throughout a program. -/
def InProgram (program : Program) : Prop := p.InStmts program.body

/-- The property that every node has. -/
def any : NodeProperty := ⟨fun _ => True, fun _ => True⟩

mutual

theorem any_inExpr : ∀ e, any.InExpr e
  | .integer .. | .float .. | .boolean .. | .string .. | .name .. => trivial
  | .binary _ l r _ => ⟨trivial, any_inExpr l, any_inExpr r⟩
  | .unary _ e _ | .group e _ => ⟨trivial, any_inExpr e⟩
  | .call _ es _ => ⟨trivial, any_inExprs es⟩
  | .range a b _ _ c _ => ⟨trivial, any_inExpr a, any_inExpr b, any_inOption c⟩
  | .run ⟨body, _⟩ _ => ⟨trivial, any_inStmts body⟩

theorem any_inExprs : ∀ es, any.InExprs es
  | [] => trivial
  | e :: es => ⟨any_inExpr e, any_inExprs es⟩

theorem any_inOption : ∀ e, any.InOption e
  | none => trivial
  | some e => any_inExpr e

theorem any_inStmt : ∀ s, any.InStmt s
  | .declare _ _ _ v _ | .assign _ _ v _ | .print v _ _ | .return v _ => ⟨trivial, any_inOption v⟩
  | .block ⟨body, _⟩ | .function ⟨_, _, _, ⟨body, _⟩, _⟩ => ⟨trivial, any_inStmts body⟩
  | .branch c a b _ => ⟨trivial, any_inExpr c, any_inStmt a, any_inElse b⟩
  | .whileLoop c b _ => ⟨trivial, any_inExpr c, any_inStmt b⟩
  | .doWhile b c _ => ⟨trivial, any_inStmt b, any_inExpr c⟩
  | .forLoop _ r b _ => ⟨trivial, any_inExpr r, any_inStmt b⟩
  | .break _ | .continue _ => trivial
  | .expression e => ⟨trivial, any_inExpr e⟩

theorem any_inElse : ∀ s, any.InElse s
  | none => trivial
  | some s => any_inStmt s

theorem any_inStmts : ∀ body, any.InStmts body
  | [] => trivial
  | s :: rest => ⟨any_inStmt s, any_inStmts rest⟩

end

variable {p}

theorem inStmts_iff {body : List Stmt} : p.InStmts body ↔ ∀ s ∈ body, p.InStmt s := by
  induction body with
  | nil => simp [InStmts]
  | cons s rest ih => simp [InStmts, ih]

theorem inExprs_iff {es : List Expr} : p.InExprs es ↔ ∀ e ∈ es, p.InExpr e := by
  induction es with
  | nil => simp [InExprs]
  | cons e es ih => simp [InExprs, ih]

/-- What holds throughout a statement holds of it. -/
theorem stmt_of_inStmt {b : Stmt} (h : p.InStmt b) : p.stmt b := by
  cases b with
  | block b =>
    obtain ⟨body, _⟩ := b
    exact h.1
  | function f =>
    obtain ⟨_, _, _, ⟨_, _⟩, _⟩ := f
    exact h.1
  | «break» | «continue» => exact h
  | _ => exact h.1

/-- What holds throughout an expression holds of it. -/
theorem expr_of_inExpr {e : Expr} (h : p.InExpr e) : p.expr e := by
  cases e with
  | integer | float | boolean | string | name => exact h
  | run b _ =>
    obtain ⟨body, _⟩ := b
    exact h.1
  | _ => exact h.1

/-! ## Programs -/

section

variable {program : Program} (h : p.InProgram program)

include h

theorem inStmts_of_functions {f : Function} (hf : f ∈ program.functions) :
    p.InStmts f.body.body := by
  obtain ⟨b, hb, hfb⟩ := List.mem_filterMap.mp hf
  have hin := inStmts_iff.mp h b hb
  cases b with
  | function g =>
    cases hfb
    obtain ⟨_, _, _, ⟨_, _⟩, _⟩ := f
    exact hin.2
  | _ => cases hfb

theorem inStmts_topLevel : p.InStmts program.topLevel :=
  inStmts_iff.mpr fun b hb => inStmts_iff.mp h b (List.mem_filter.mp hb).1

end

/-! ## Properties that follow from others -/

section

variable {q r : NodeProperty} (he : ∀ e, p.expr e → q.expr e → r.expr e)
  (hs : ∀ b, p.stmt b → q.stmt b → r.stmt b)

include he hs

set_option linter.unusedSectionVars false

mutual

/-- What follows of each node from two properties holds throughout a tree where both do. -/
theorem inExpr_both : ∀ e, p.InExpr e → q.InExpr e → r.InExpr e
  | .integer .., h, h' | .float .., h, h' | .boolean .., h, h' | .string .., h, h'
  | .name .., h, h' => he _ h h'
  | .binary _ l r _, h, h' =>
    ⟨he _ h.1 h'.1, inExpr_both l h.2.1 h'.2.1, inExpr_both r h.2.2 h'.2.2⟩
  | .unary _ e _, h, h' | .group e _, h, h' => ⟨he _ h.1 h'.1, inExpr_both e h.2 h'.2⟩
  | .call _ es _, h, h' => ⟨he _ h.1 h'.1, inExprs_both es h.2 h'.2⟩
  | .range a b _ _ c _, h, h' =>
    ⟨he _ h.1 h'.1, inExpr_both a h.2.1 h'.2.1, inExpr_both b h.2.2.1 h'.2.2.1,
      inOption_both c h.2.2.2 h'.2.2.2⟩
  | .run ⟨body, _⟩ _, h, h' => ⟨he _ h.1 h'.1, inStmts_both body h.2 h'.2⟩

theorem inExprs_both : ∀ es, p.InExprs es → q.InExprs es → r.InExprs es
  | [], _, _ => trivial
  | e :: es, h, h' => ⟨inExpr_both e h.1 h'.1, inExprs_both es h.2 h'.2⟩

theorem inOption_both : ∀ e, p.InOption e → q.InOption e → r.InOption e
  | none, _, _ => trivial
  | some e, h, h' => inExpr_both e h h'

theorem inStmt_both : ∀ b, p.InStmt b → q.InStmt b → r.InStmt b
  | .declare _ _ _ v _, h, h' | .assign _ _ v _, h, h' | .print v _ _, h, h'
  | .return v _, h, h' => ⟨hs _ h.1 h'.1, inOption_both v h.2 h'.2⟩
  | .block ⟨body, _⟩, h, h' | .function ⟨_, _, _, ⟨body, _⟩, _⟩, h, h' =>
    ⟨hs _ h.1 h'.1, inStmts_both body h.2 h'.2⟩
  | .branch c a b _, h, h' =>
    ⟨hs _ h.1 h'.1, inExpr_both c h.2.1 h'.2.1, inStmt_both a h.2.2.1 h'.2.2.1,
      inElse_both b h.2.2.2 h'.2.2.2⟩
  | .whileLoop c b _, h, h' =>
    ⟨hs _ h.1 h'.1, inExpr_both c h.2.1 h'.2.1, inStmt_both b h.2.2 h'.2.2⟩
  | .doWhile b c _, h, h' =>
    ⟨hs _ h.1 h'.1, inStmt_both b h.2.1 h'.2.1, inExpr_both c h.2.2 h'.2.2⟩
  | .forLoop _ r b _, h, h' =>
    ⟨hs _ h.1 h'.1, inExpr_both r h.2.1 h'.2.1, inStmt_both b h.2.2 h'.2.2⟩
  | .break _, h, h' | .continue _, h, h' => hs _ h h'
  | .expression e, h, h' => ⟨hs _ h.1 h'.1, inExpr_both e h.2 h'.2⟩

theorem inElse_both : ∀ b, p.InElse b → q.InElse b → r.InElse b
  | none, _, _ => trivial
  | some b, h, h' => inStmt_both b h h'

theorem inStmts_both : ∀ body, p.InStmts body → q.InStmts body → r.InStmts body
  | [], _, _ => trivial
  | b :: rest, h, h' => ⟨inStmt_both b h.1 h'.1, inStmts_both rest h.2 h'.2⟩

end

end

/-- Two properties of each node. -/
def and (p q : NodeProperty) : NodeProperty :=
  ⟨fun e => p.expr e ∧ q.expr e, fun b => p.stmt b ∧ q.stmt b⟩

theorem inStmts_and {q : NodeProperty} {body : List Stmt} (h : p.InStmts body)
    (h' : q.InStmts body) : (p.and q).InStmts body :=
  inStmts_both (fun _ => And.intro) (fun _ => And.intro) body h h'

section

variable {q : NodeProperty} (he : ∀ e, p.expr e → q.expr e) (hs : ∀ b, p.stmt b → q.stmt b)

include he hs

theorem inStmts_mono (body : List Stmt) (h : p.InStmts body) : q.InStmts body :=
  inStmts_both (fun e h _ => he e h) (fun b h _ => hs b h) body h (any_inStmts body)

end

end NodeProperty

end ScriptLang
