import ScriptLang.Environment
import ScriptLang.Frame
import ScriptLang.Proofs.Tree.Nodes
import ScriptLang.Proofs.Typing.Operator

/-!
# Types of expressions

A judgment gives the type of an expression's value and the faults reported on the
way to it, from the types of the variables alone. It covers all expressions but
calls and `run` blocks.
-/

namespace ScriptLang

namespace Value

theorem type_zero (type : DeclaredType) : (zero type).type = type.valueType := by
  cases type <;> rfl

theorem type_of_convert? {v w : Value} {type : DeclaredType} (h : v.convert? type = some w) :
    w.type = type.valueType := by
  cases v <;> cases type <;> cases h <;> rfl

/-- A value of its type is stored in a variable as it is. -/
theorem widen_of_type {v : Value} {type : DeclaredType} (h : v.type = type.valueType) :
    v.widen type = v := by
  cases v <;> cases type <;> first | rfl | cases h

end Value

/-- What a variable keeps while it lives. -/
structure Typing where
  type : ValueType
  mutable : Bool
  deriving DecidableEq

/-- The variables that are known. -/
abbrev Typings := String → Option Typing

namespace Binding

def typing (b : Binding) : Typing := ⟨b.value.type, b.mutable⟩

/-- The value is one of the declared type, or a range under `Int`. -/
def Consistent (b : Binding) : Prop :=
  b.value.type = b.type.valueType ∨ b.value.type = .range ∧ b.type = .int

instance (b : Binding) : Decidable b.Consistent :=
  inferInstanceAs (Decidable (_ ∨ _))

/-- A number of the type that is there is stored as it is. -/
theorem Consistent.widen {b : Binding} {v : Value} (h : b.Consistent)
    (ht : v.type = b.value.type) (hn : v.type.isNumeric = true) :
    (v.widen b.type).type = v.type ∧ v.type = b.type.valueType := by
  have hd : v.type = b.type.valueType := by
    rcases h with h | ⟨h, -⟩
    · rw [ht, h]
    · rw [ht, h] at hn
      cases hn
  refine ⟨?_, hd⟩
  cases v with
  | integer n => cases hb : b.type <;> rw [hb] at hd <;> first | rfl | cases hd
  | _ => rfl

end Binding

def Slot.typing (s : Slot) : Typing := ⟨s.type, s.mutable⟩

/-- Numbers are stepped, and a `val` objects to it. -/
def Typing.stepObjection (k : Typing) (name : String) : Option Cause :=
  if k.type.isNumeric && !k.mutable then some (.valReassignment name) else none

/-- Only variables are stepped. -/
def stepObjection (Γ : Typings) (operand : Expr) : Option Cause := do
  let name ← operand.ungroup.name?
  (← Γ name).stepObjection name

theorem stepObjection_of_none {Γ : Typings} {e : Expr} (h : e.ungroup.name? = none) :
    stepObjection Γ e = none := by
  change e.ungroup.name?.bind _ = none
  rw [h]
  rfl

theorem stepObjection_of_some {Γ : Typings} {e : Expr} {n : String} {k : Typing}
    (h : e.ungroup.name? = some n) (hk : Γ n = some k) :
    stepObjection Γ e = k.stepObjection n := by
  change e.ungroup.name?.bind (fun name => (Γ name).bind _) = _
  rw [h, Option.bind_some, hk]
  rfl

/-- The expression has a value of the type and reports the faults in this order. The
step of a range is never looked at. -/
inductive Types (Γ : Typings) : Expr → ValueType → List Fault → Prop where
  | integer {n span} : Types Γ (.integer n span) .integer []
  | float {x span} : Types Γ (.float x span) .float []
  | boolean {b span} : Types Γ (.boolean b span) .boolean []
  | string {t span} : Types Γ (.string t span) .string []
  | name {n span k} (known : Γ n = some k) : Types Γ (.name n span) k.type []
  | group {e span t ds} (inner : Types Γ e t ds) : Types Γ (.group e span) t ds
  | binary {o l r span t u ds es} (left : Types Γ l t ds) (right : Types Γ r u es) :
    Types Γ (.binary o l r span) (o.resultType t u)
      (ds ++ (es ++ faultsAt (o.objection t u) span.start))
  | unary {o e span t ds} (plain : ∀ step, o ≠ .step step) (operand : Types Γ e t ds) :
    Types Γ (.unary o e span) (o.resultType t) (ds ++ faultsAt (o.objection t) span.start)
  | step {s e span t ds} (operand : Types Γ e t ds) :
    Types Γ (.unary (.step s) e span) t (ds ++ faultsAt (stepObjection Γ e) span.start)
  | range {a b excludes descending c span t u ds es} (start : Types Γ a t ds)
      (stop : Types Γ b u es) :
    Types Γ (.range a b excludes descending c span) .range
      (ds ++ (faultsAt (t.conversionObjection .integer) a.span.start ++
        (es ++ faultsAt (u.conversionObjection .integer) b.span.start)))

/-- An expression is neither a call nor a `run` block, and a name has a property. -/
def plain (p : String → Prop) : NodeProperty where
  expr
    | .name n _ => p n
    | .call .. | .run .. => False
    | _ => True
  stmt _ := True

namespace Types

variable {Γ : Typings}

/-- Without calls and `run` blocks, every expression over known variables has a type. -/
theorem total {p : String → Prop} (hp : ∀ n, p n → ∃ k, Γ n = some k) :
    ∀ e, (plain p).InExpr e → ∃ t ds, Types Γ e t ds
  | .integer .., _ => ⟨_, _, integer⟩
  | .float .., _ => ⟨_, _, float⟩
  | .boolean .., _ => ⟨_, _, boolean⟩
  | .string .., _ => ⟨_, _, string⟩
  | .name n _, h => by
    obtain ⟨k, hk⟩ := hp n h
    exact ⟨_, _, name hk⟩
  | .group e _, h => by
    obtain ⟨t, ds, ht⟩ := total hp e h.2
    exact ⟨t, ds, group ht⟩
  | .binary _ l r _, h => by
    obtain ⟨t, ds, ht⟩ := total hp l h.2.1
    obtain ⟨u, es, hu⟩ := total hp r h.2.2
    exact ⟨_, _, binary ht hu⟩
  | .unary o e _, h => by
    obtain ⟨t, ds, ht⟩ := total hp e h.2
    cases o with
    | step s => exact ⟨_, _, step ht⟩
    | not => exact ⟨_, _, unary (by simp) ht⟩
    | negate => exact ⟨_, _, unary (by simp) ht⟩
    | plus => exact ⟨_, _, unary (by simp) ht⟩
  | .range a b .., h => by
    obtain ⟨t, ds, ht⟩ := total hp a h.2.1
    obtain ⟨u, es, hu⟩ := total hp b h.2.2.1
    exact ⟨_, _, range ht hu⟩
  | .call .., h => h.1.elim
  | .run ⟨_, _⟩ _, h => h.1.elim

/-- A name in parentheses has the type of the variable. -/
theorem of_name? {e : Expr} {n : String} {t : ValueType} {ds : List Fault} (h : Types Γ e t ds)
    (hn : e.ungroup.name? = some n) : ∃ k, Γ n = some k ∧ t = k.type ∧ ds = [] := by
  induction h with
  | name hk =>
    cases hn
    exact ⟨_, hk, rfl, rfl⟩
  | group _ ih => exact ih hn
  | _ => cases hn

end Types

end ScriptLang
