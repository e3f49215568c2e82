import ScriptLang.Proofs.Typing.Judgment

/-!
# Statements that keep to the types

A variable keeps its type as long as it is assigned to by conversion to it. One that
holds a range has no type to convert to that would keep it a range, so statements that
keep to the types leave those alone. The rules cover statements without calls and `run`
blocks that declare in blocks only.
-/

namespace ScriptLang

/-- One more variable is known. -/
def Typings.bind (Γ : Typings) (name : String) (k : Typing) : Typings :=
  fun n => if n = name then some k else Γ n

/-- What is known again is nothing new. -/
theorem Typings.bind_of_eq {Γ : Typings} {name : String} {k : Typing} (h : Γ name = some k) :
    Γ.bind name k = Γ := by
  funext n
  unfold Typings.bind
  split
  · next hn => rw [hn, h]
  · rfl

/-- The typing of a variable that is declared with a value or none. -/
def declaredTyping (constant : Bool) (type : Option DeclaredType) (value : Option ValueType) :
    Typing where
  type := match type, value with
    | some t, _ => t.valueType
    | none, some v => v
    | none, none => .integer
  mutable := !constant

/-- Expressions have a type. -/
def Expr.Typed (Γ : Typings) (e : Expr) : Prop := ∃ t ds, Types Γ e t ds

/-- An expression, if there is one, has the type. -/
def OptionTypes (Γ : Typings) : Option Expr → Option ValueType → Prop
  | none, none => True
  | some e, some t => ∃ ds, Types Γ e t ds
  | _, _ => False

/-- The bounds and the step of a range have types. -/
def Expr.RangeTyped (Γ : Typings) : Expr → Prop
  | .group e _ => e.RangeTyped Γ
  | .range a b _ _ c _ => a.Typed Γ ∧ b.Typed Γ ∧ ∀ e ∈ c, e.Typed Γ
  | _ => False

/-- The variable is not a `var` that holds a range. -/
def Typings.KeepsType (Γ : Typings) (name : String) : Prop := Γ name ≠ some ⟨.range, true⟩

mutual

/-- A statement that declares nothing where it stands. Steps leave ranges alone; other
assignments to them, and loops that count in them, do not fit. -/
def Stmt.Fits (Γ : Typings) : Stmt → Prop
  | .expression e => e.Typed Γ
  | .declare .. => False
  | .assign target operator value _ =>
    (∃ k, Γ target = some k) ∧ (operator.isStep = true ∨ Γ.KeepsType target) ∧
      ∀ e ∈ value, e.Typed Γ
  | .print value _ _ => ∀ e ∈ value, e.Typed Γ
  | .block ⟨body, _⟩ => Stmt.FitAll Γ body
  | .branch c a b _ => c.Typed Γ ∧ a.Fits Γ ∧ Stmt.ElseFits Γ b
  | .whileLoop c b _ => c.Typed Γ ∧ b.Fits Γ
  | .doWhile b c _ => b.Fits Γ ∧ c.Typed Γ
  | .forLoop counter range b _ =>
    Γ.KeepsType counter ∧ range.RangeTyped Γ ∧ b.Fits (Γ.bind counter ⟨.integer, true⟩)
  | .function _ | .break _ | .continue _ => True
  | .return value _ => ∀ e ∈ value, e.Typed Γ

def Stmt.ElseFits (Γ : Typings) : Option Stmt → Prop
  | none => True
  | some b => b.Fits Γ

/-- What is declared is known to the statements behind it. -/
def Stmt.FitAll (Γ : Typings) : List Stmt → Prop
  | [] => True
  | .declare name constant type value _ :: rest =>
    ∃ t, OptionTypes Γ value t ∧ Stmt.FitAll (Γ.bind name (declaredTyping constant type t)) rest
  | b :: rest => b.Fits Γ ∧ Stmt.FitAll Γ rest

end

/-- A block begins with a declaration, or with a statement that declares nothing. -/
theorem Stmt.fitAll_cons {Γ : Typings} {b : Stmt} {rest : List Stmt}
    (h : Stmt.FitAll Γ (b :: rest)) :
    (∃ name constant type value span t, b = .declare name constant type value span ∧
      OptionTypes Γ value t ∧ Stmt.FitAll (Γ.bind name (declaredTyping constant type t)) rest) ∨
    b.Fits Γ ∧ Stmt.FitAll Γ rest := by
  cases b with
  | declare name constant type value span =>
    obtain ⟨t, ht, hrest⟩ := h
    exact .inl ⟨name, constant, type, value, span, t, rfl, ht, hrest⟩
  | _ => exact .inr h

end ScriptLang
