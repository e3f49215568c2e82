import ScriptLang.Codegen.Static
import ScriptLang.Proofs.Tree.Bare

/-!
# Trees without spans and parentheses

The core of a tree has no groups, and every span in it is blank. Trees with one core
say the same: they differ in where they stand and in parentheses that only group. What
is read off a tree without evaluating it is read off its core as well.
-/

namespace ScriptLang

mutual

@[simp] def Expr.core : Expr → Expr
  | .integer n _ => .integer n default
  | .float x _ => .float x default
  | .boolean b _ => .boolean b default
  | .string t _ => .string t default
  | .name n _ => .name n default
  | .binary o l r _ => .binary o (Expr.core l) (Expr.core r) default
  | .unary o e _ => .unary o (Expr.core e) default
  | .group e _ => Expr.core e
  | .call f es _ => .call f (Expr.coreList es) default
  | .range a b x d c _ => .range (Expr.core a) (Expr.core b) x d (Expr.coreOption c) default
  | .run ⟨body, _⟩ _ => .run ⟨Stmt.coreList body, default⟩ default

@[simp] def Expr.coreList : List Expr → List Expr
  | [] => []
  | e :: es => Expr.core e :: Expr.coreList es

@[simp] def Expr.coreOption : Option Expr → Option Expr
  | none => none
  | some e => some (Expr.core e)

@[simp] def Stmt.core : Stmt → Stmt
  | .declare n c t v _ => .declare n c t (Expr.coreOption v) default
  | .assign n o v _ => .assign n o (Expr.coreOption v) default
  | .print v l _ => .print (Expr.coreOption v) l default
  | .block ⟨body, _⟩ => .block ⟨Stmt.coreList body, default⟩
  | .branch c a b _ => .branch (Expr.core c) (Stmt.core a) (Stmt.coreOption b) default
  | .whileLoop c b _ => .whileLoop (Expr.core c) (Stmt.core b) default
  | .doWhile b c _ => .doWhile (Stmt.core b) (Expr.core c) default
  | .forLoop n r b _ => .forLoop n (Expr.core r) (Stmt.core b) default
  | .function ⟨n, ps, t, ⟨body, _⟩, _⟩ =>
    .function ⟨n, ps, t, ⟨Stmt.coreList body, default⟩, default⟩
  | .return v _ => .return (Expr.coreOption v) default
  | .break _ => .break default
  | .continue _ => .continue default
  | .expression e => .expression (Expr.core e)

@[simp] def Stmt.coreOption : Option Stmt → Option Stmt
  | none => none
  | some s => some (Stmt.core s)

@[simp] def Stmt.coreList : List Stmt → List Stmt
  | [] => []
  | s :: rest => Stmt.core s :: Stmt.coreList rest

end

def Function.core (f : Function) : Function :=
  ⟨f.name, f.parameters, f.returns, ⟨Stmt.coreList f.body.body, default⟩, default⟩

/-- The program without spans and parentheses. -/
def Program.core (p : Program) : Program := ⟨Stmt.coreList p.body, default⟩

/-! ## Spans -/

mutual

theorem Expr.core_bare : ∀ e : Expr, e.bare.core = e.core
  | .integer .. | .float .. | .boolean .. | .string .. | .name .. => rfl
  | .binary _ l r _ => by rw [Expr.bare, Expr.core, Expr.core, Expr.core_bare l, Expr.core_bare r]
  | .unary _ e _ => by rw [Expr.bare, Expr.core, Expr.core, Expr.core_bare e]
  | .group e _ => by rw [Expr.bare, Expr.core, Expr.core, Expr.core_bare e]
  | .call _ es _ => by rw [Expr.bare, Expr.core, Expr.core, Expr.coreList_bareList es]
  | .range a b _ _ c _ => by
    rw [Expr.bare, Expr.core, Expr.core, Expr.core_bare a, Expr.core_bare b,
      Expr.coreOption_bareOption c]
  | .run ⟨body, _⟩ _ => by rw [Expr.bare, Expr.core, Expr.core, Stmt.coreList_bareList body]

theorem Expr.coreList_bareList : ∀ es : List Expr,
    Expr.coreList (Expr.bareList es) = Expr.coreList es
  | [] => rfl
  | e :: es => by
    rw [Expr.bareList, Expr.coreList, Expr.coreList, Expr.core_bare e, Expr.coreList_bareList es]

theorem Expr.coreOption_bareOption : ∀ e : Option Expr,
    Expr.coreOption (Expr.bareOption e) = Expr.coreOption e
  | none => rfl
  | some e => by rw [Expr.bareOption, Expr.coreOption, Expr.coreOption, Expr.core_bare e]

theorem Stmt.core_bare : ∀ s : Stmt, s.bare.core = s.core
  | .declare _ _ _ v _ | .assign _ _ v _ | .print v _ _ | .return v _ => by
    rw [Stmt.bare, Stmt.core, Stmt.core, Expr.coreOption_bareOption v]
  | .block ⟨body, _⟩ | .function ⟨_, _, _, ⟨body, _⟩, _⟩ => by
    rw [Stmt.bare, Stmt.core, Stmt.core, Stmt.coreList_bareList body]
  | .branch c a b _ => by
    rw [Stmt.bare, Stmt.core, Stmt.core, c.core_bare, Stmt.core_bare a,
      Stmt.coreOption_bareOption b]
  | .whileLoop c b _ | .doWhile b c _ => by
    rw [Stmt.bare, Stmt.core, Stmt.core, c.core_bare, Stmt.core_bare b]
  | .forLoop _ r b _ => by rw [Stmt.bare, Stmt.core, Stmt.core, r.core_bare, Stmt.core_bare b]
  | .break _ | .continue _ => rfl
  | .expression e => by rw [Stmt.bare, Stmt.core, Stmt.core, e.core_bare]

theorem Stmt.coreOption_bareOption : ∀ s : Option Stmt,
    Stmt.coreOption (Stmt.bareOption s) = Stmt.coreOption s
  | none => rfl
  | some s => by rw [Stmt.bareOption, Stmt.coreOption, Stmt.coreOption, Stmt.core_bare s]

theorem Stmt.coreList_bareList : ∀ body : List Stmt,
    Stmt.coreList (Stmt.bareList body) = Stmt.coreList body
  | [] => rfl
  | s :: rest => by
    rw [Stmt.bareList, Stmt.coreList, Stmt.coreList, Stmt.core_bare s, Stmt.coreList_bareList rest]

end

/-- Programs that are equal up to spans have one core. -/
theorem Program.core_eq_of_bare_eq {p q : Program} (h : p.bare = q.bare) : p.core = q.core := by
  have hbody : Stmt.bareList p.body = Stmt.bareList q.body := congrArg Program.body h
  rw [core, core, ← Stmt.coreList_bareList p.body, hbody, Stmt.coreList_bareList]

/-! ## Lists -/

theorem Expr.coreList_eq (es : List Expr) : coreList es = es.map core := by
  induction es with
  | nil => rfl
  | cons e es ih => rw [coreList, ih, List.map_cons]

theorem Stmt.coreList_eq (body : List Stmt) : coreList body = body.map core := by
  induction body with
  | nil => rfl
  | cons s rest ih => rw [coreList, ih, List.map_cons]

theorem Stmt.function?_core (s : Stmt) : s.core.function? = s.function?.map Function.core := by
  cases s with
  | function f => obtain ⟨_, _, _, ⟨_, _⟩, _⟩ := f; rfl
  | block b => cases b; rfl
  | _ => rfl

theorem Program.functions_core (p : Program) :
    p.core.functions = p.functions.map Function.core := by
  change (Stmt.coreList p.body).filterMap Stmt.function? = _
  rw [Stmt.coreList_eq, List.filterMap_map, functions, List.map_filterMap]
  exact congrArg (List.filterMap · p.body) (funext Stmt.function?_core)

theorem Program.topLevel_core (p : Program) : p.core.topLevel = p.topLevel.map Stmt.core := by
  change (Stmt.coreList p.body).filter _ = _
  rw [Stmt.coreList_eq, List.filter_map, topLevel]
  refine congrArg (List.map Stmt.core) (List.filter_congr fun s _ => ?_)
  rw [Function.comp_apply, Stmt.function?_core, Option.isNone_map]

/-! ## Shapes -/

namespace Expr

/-- A core has no parentheses to look into. -/
theorem ungroup_core (e : Expr) : e.core.ungroup = e.core := by
  cases e with
  | group inner _ =>
    rw [core]
    exact ungroup_core inner
  | run block _ => cases block; rfl
  | _ => rfl

theorem name?_core (e : Expr) : e.core.name? = e.ungroup.name? := by
  cases e with
  | group inner _ =>
    rw [core, ungroup]
    exact name?_core inner
  | run block _ => cases block; rfl
  | _ => rfl

end Expr

section

variable {globals globals' : NameMap Slot} {returns returns' : NameMap DeclaredType}
  (hg : globals'.find? = globals.find?) (hr : returns'.find? = returns.find?)

include hg hr

-- Functions of the recursion that only call others use the hypotheses too.
set_option linter.unusedSectionVars false

mutual

theorem Expr.staticType_core : ∀ e : Expr,
    e.core.staticType globals' returns' = e.staticType globals returns
  | .integer .. | .float .. | .boolean .. | .string .. | .range .. => rfl
  | .name .. => by rw [Expr.core, Expr.staticType, Expr.staticType, hg]
  | .call .. => by rw [Expr.core, Expr.staticType, Expr.staticType, hr]
  | .group inner _ => Expr.staticType_core inner
  | .binary (.arithmetic _) l r _ => by
    rw [Expr.core, Expr.staticType, Expr.staticType, Expr.staticType_core l, Expr.staticType_core r]
  | .binary (.comparison _) .. | .binary (.logical _) .. => rfl
  | .unary .not .. => rfl
  | .unary .negate e _ | .unary .plus e _ | .unary (.step _) e _ => Expr.staticType_core e
  | .run ⟨body, _⟩ _ => lastStaticType_coreList body

theorem lastStaticType_coreList : ∀ body : List Stmt,
    lastStaticType globals' returns' (Stmt.coreList body) = lastStaticType globals returns body
  | [] => rfl
  | [s] => by
    cases s with
    | expression e => exact Expr.staticType_core e
    | block b => cases b; rfl
    | function f => obtain ⟨_, _, _, ⟨_, _⟩, _⟩ := f; rfl
    | _ => rfl
  | s :: t :: rest => by
    have h := lastStaticType_coreList (t :: rest)
    cases s with
    | block b => cases b; exact h
    | function f => obtain ⟨_, _, _, ⟨_, _⟩, _⟩ := f; exact h
    | _ => exact h

end

end

mutual

theorem Expr.floats_core : ∀ e : Expr, e.core.floats = e.floats
  | .integer .. | .float .. | .boolean .. | .string .. | .name .. => rfl
  | .group inner _ => Expr.floats_core inner
  | .unary _ e _ => Expr.floats_core e
  | .binary _ l r _ => by
    rw [Expr.core, Expr.floats, Expr.floats, Expr.floats_core l, Expr.floats_core r]
  | .call _ es _ => argumentFloats_coreList es
  | .range a b _ _ c _ => by
    rw [Expr.core, Expr.floats, Expr.floats, Expr.floats_core a, Expr.floats_core b,
      optionFloats_coreOption c]
  | .run ⟨body, _⟩ _ => bodyFloats_coreList body

theorem argumentFloats_coreList : ∀ es : List Expr,
    argumentFloats (Expr.coreList es) = argumentFloats es
  | [] => rfl
  | e :: es => by
    rw [Expr.coreList, argumentFloats, argumentFloats, e.floats_core, argumentFloats_coreList es]

theorem optionFloats_coreOption : ∀ e : Option Expr,
    optionFloats (Expr.coreOption e) = optionFloats e
  | none => rfl
  | some e => e.floats_core

theorem Stmt.floats_core : ∀ s : Stmt, s.core.floats = s.floats
  | .declare _ _ _ v _ | .assign _ _ v _ | .print v _ _ | .return v _ => optionFloats_coreOption v
  | .block ⟨body, _⟩ | .function ⟨_, _, _, ⟨body, _⟩, _⟩ => bodyFloats_coreList body
  | .branch c a b _ => by
    rw [Stmt.core, Stmt.floats, Stmt.floats, c.floats_core, Stmt.floats_core a,
      optionBodyFloats_coreOption b]
  | .whileLoop c b _ | .doWhile b c _ => by
    rw [Stmt.core, Stmt.floats, Stmt.floats, c.floats_core, Stmt.floats_core b]
  | .forLoop _ r b _ => by
    rw [Stmt.core, Stmt.floats, Stmt.floats, r.floats_core, Stmt.floats_core b]
  | .break _ | .continue _ => rfl
  | .expression e => e.floats_core

theorem optionBodyFloats_coreOption : ∀ s : Option Stmt,
    optionBodyFloats (Stmt.coreOption s) = optionBodyFloats s
  | none => rfl
  | some s => s.floats_core

theorem bodyFloats_coreList : ∀ body : List Stmt, bodyFloats (Stmt.coreList body) = bodyFloats body
  | [] => rfl
  | s :: rest => by
    rw [Stmt.coreList, bodyFloats, bodyFloats, s.floats_core, bodyFloats_coreList rest]

end

end ScriptLang
