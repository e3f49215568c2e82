import Mathlib.Data.Set.Insert
import ScriptLang.Tree.Program

/-!
# Functions that are closed

A function is closed if each name in it is that of a parameter, of a variable that was
declared before, or of a global. What counts as declared is what is declared for sure,
by a statement of a block that stands in front. The names of globals are given; nothing
but a statement of the top level may declare them.
-/

namespace ScriptLang

/-- The names that are known behind a statement. -/
def Stmt.bind (known : Set String) : Stmt → Set String
  | .declare name _ _ _ _ => insert name known
  | _ => known

/-- The names that are known in the body of a function. -/
def Parameter.bindAll (known : Set String) : List Parameter → Set String
  | [] => known
  | p :: ps => bindAll (insert p.name known) ps

section

variable (globals : Set String)

mutual

/-- Each name in the expression is known where it stands. -/
def Expr.Closed (known : Set String) : Expr → Prop
  | .integer .. | .float .. | .boolean .. | .string .. => True
  | .name n _ => n ∈ known
  | .binary _ l r _ => l.Closed known ∧ r.Closed known
  | .unary _ e _ | .group e _ => e.Closed known
  | .call _ es _ => Expr.AllClosed known es
  | .range a b _ _ c _ => a.Closed known ∧ b.Closed known ∧ Expr.OptionClosed known c
  | .run ⟨body, _⟩ _ => Stmt.AllClosed known body

def Expr.AllClosed (known : Set String) : List Expr → Prop
  | [] => True
  | e :: es => e.Closed known ∧ Expr.AllClosed known es

def Expr.OptionClosed (known : Set String) : Option Expr → Prop
  | none => True
  | some e => e.Closed known

/-- Each name in the statement is known where it stands, and no global is declared. A loop
knows its counter. -/
def Stmt.Closed (known : Set String) : Stmt → Prop
  | .declare name _ _ v _ => name ∉ globals ∧ Expr.OptionClosed known v
  | .assign target _ v _ => target ∈ known ∧ Expr.OptionClosed known v
  | .print v _ _ | .return v _ => Expr.OptionClosed known v
  | .block ⟨body, _⟩ => Stmt.AllClosed known body
  | .branch c a b _ => c.Closed known ∧ a.Closed known ∧ Stmt.ElseClosed known b
  | .whileLoop c b _ | .doWhile b c _ => c.Closed known ∧ b.Closed known
  | .forLoop counter range b _ =>
    counter ∉ globals ∧ range.Closed known ∧ b.Closed (insert counter known)
  | .function _ | .break _ | .continue _ => True
  | .expression e => e.Closed known

def Stmt.ElseClosed (known : Set String) : Option Stmt → Prop
  | none => True
  | some b => b.Closed known

/-- What is declared is known to the statements behind it. -/
def Stmt.AllClosed (known : Set String) : List Stmt → Prop
  | [] => True
  | b :: rest => b.Closed known ∧ Stmt.AllClosed (b.bind known) rest

end

/-- A function knows its parameters and the globals. -/
def Function.Closed (f : Function) : Prop :=
  (∀ p ∈ f.parameters, p.name ∉ globals) ∧
    Stmt.AllClosed globals (Parameter.bindAll globals f.parameters) f.body.body

/-- A statement of the top level may declare a global, and knows all names. -/
def Stmt.ClosedOutside : Stmt → Prop
  | .declare _ _ _ v _ => Expr.OptionClosed globals Set.univ v
  | b => b.Closed globals Set.univ

/-- All functions of the program are closed, and no statement declares a global in a scope
of its own. -/
structure Program.Closed (p : Program) : Prop where
  functions : ∀ f ∈ p.functions, f.Closed globals
  topLevel : ∀ b ∈ p.topLevel, b.ClosedOutside globals

end

variable {globals known : Set String}

/-- A name in parentheses is known. -/
theorem Expr.Closed.of_ungroup {name : String} : ∀ {e : Expr}, e.Closed globals known →
    e.ungroup.name? = some name → name ∈ known
  | .name _ _, h, hn => by
    cases hn
    exact h
  | .group inner _, h, hn => of_ungroup (e := inner) h hn

end ScriptLang
