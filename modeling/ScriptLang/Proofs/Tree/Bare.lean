import ScriptLang.Tree.Program

/-!
# Trees without spans

Two trees are equal up to spans if they are equal once every span is blank.
-/

namespace ScriptLang

mutual

@[simp] def Expr.bare : Expr → Expr
  | .integer n _ => .integer n default
  | .float x _ => .float x default
  | .boolean b _ => .boolean b default
  | .string t _ => .string t default
  | .name n _ => .name n default
  | .binary o l r _ => .binary o (Expr.bare l) (Expr.bare r) default
  | .unary o e _ => .unary o (Expr.bare e) default
  | .group e _ => .group (Expr.bare e) default
  | .call f es _ => .call f (Expr.bareList es) default
  | .range a b x d c _ => .range (Expr.bare a) (Expr.bare b) x d (Expr.bareOption c) default
  | .run ⟨body, _⟩ _ => .run ⟨Stmt.bareList body, default⟩ default

@[simp] def Expr.bareList : List Expr → List Expr
  | [] => []
  | e :: es => Expr.bare e :: Expr.bareList es

@[simp] def Expr.bareOption : Option Expr → Option Expr
  | none => none
  | some e => some (Expr.bare e)

@[simp] def Stmt.bare : Stmt → Stmt
  | .declare n c t v _ => .declare n c t (Expr.bareOption v) default
  | .assign n o v _ => .assign n o (Expr.bareOption v) default
  | .print v l _ => .print (Expr.bareOption v) l default
  | .block ⟨body, _⟩ => .block ⟨Stmt.bareList body, default⟩
  | .branch c a b _ => .branch (Expr.bare c) (Stmt.bare a) (Stmt.bareOption b) default
  | .whileLoop c b _ => .whileLoop (Expr.bare c) (Stmt.bare b) default
  | .doWhile b c _ => .doWhile (Stmt.bare b) (Expr.bare c) default
  | .forLoop n r b _ => .forLoop n (Expr.bare r) (Stmt.bare b) default
  | .function ⟨n, ps, t, ⟨body, _⟩, _⟩ =>
    .function ⟨n, ps, t, ⟨Stmt.bareList body, default⟩, default⟩
  | .return v _ => .return (Expr.bareOption v) default
  | .break _ => .break default
  | .continue _ => .continue default
  | .expression e => .expression (Expr.bare e)

@[simp] def Stmt.bareOption : Option Stmt → Option Stmt
  | none => none
  | some s => some (Stmt.bare s)

@[simp] def Stmt.bareList : List Stmt → List Stmt
  | [] => []
  | s :: rest => Stmt.bare s :: Stmt.bareList rest

end

/-- The program with blank spans. -/
def Program.bare (p : Program) : Program := ⟨Stmt.bareList p.body, default⟩

theorem Expr.bareList_eq (es : List Expr) : Expr.bareList es = es.map Expr.bare := by
  induction es with
  | nil => rfl
  | cons e es ih => rw [Expr.bareList, ih, List.map_cons]

theorem Expr.bareOption_isNone (e : Option Expr) :
    (Expr.bareOption e).isNone = e.isNone := by
  cases e <;> rfl

/-- Whether an expression is a range in parentheses does not depend on spans. -/
theorem Expr.isRange_ungroup_bare (e : Expr) : e.bare.ungroup.isRange = e.ungroup.isRange := by
  fun_induction ungroup e with
  | case1 inner s ih => rw [Expr.bare, ungroup, ih]
  | case2 e he =>
    cases e with
    | group inner s => exact absurd rfl (he inner s)
    | run b s => cases b; rfl
    | _ => rfl

end ScriptLang
