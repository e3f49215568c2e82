import ScriptLang.NameMap
import ScriptLang.Value

/-!
# Environments

Variables live in scopes, one inside the other. The outermost scope holds the
globals and is never left. A name means its innermost binding.
-/

namespace ScriptLang

structure Binding where
  value : Value
  type : DeclaredType
  /-- `var` bindings are mutable, `val` bindings are not. -/
  mutable : Bool

/-- Why an update was refused. -/
inductive Refusal where
  | undeclared | immutable
  deriving DecidableEq

abbrev Scope := NameMap Binding

structure Environment where
  /-- Innermost first. -/
  scopes : List Scope

namespace Environment

/-- Only the outermost scope, empty. -/
def new : Environment := ⟨[.empty]⟩

/-- The number of scopes. -/
def depth (e : Environment) : Nat := e.scopes.length

/-- Enters a scope. -/
def push (e : Environment) : Environment := ⟨.empty :: e.scopes⟩

/-- Leaves the innermost scope, unless it is the outermost. -/
def pop (e : Environment) : Environment :=
  match e.scopes with
  | _ :: outer :: rest => ⟨outer :: rest⟩
  | _ => e

/-- Puts a binding into the innermost scope, in place of one of that name. -/
def bind (e : Environment) (name : String) (b : Binding) : Environment :=
  match e.scopes with
  | inner :: rest => ⟨inner.insert name b :: rest⟩
  | [] => e

/-- Declares a variable in the innermost scope. -/
def declare (e : Environment) (name : String) (value : Value) (type : DeclaredType)
    (mutable : Bool) : Environment :=
  e.bind name ⟨value.widen type, type, mutable⟩

/-- The innermost binding of a name. -/
def find? (e : Environment) (name : String) : Option Binding := e.scopes.findSome? (·.find? name)

/-- The innermost binding of a name, with the number of scopes outside its own. -/
def locateIn (name : String) : List Scope → Option (Nat × Binding)
  | [] => none
  | inner :: outer =>
    match inner.find? name with
    | some b => some (outer.length, b)
    | none => locateIn name outer

/-- The binding of a name and the index of its scope; the globals have index 0. -/
def locate? (e : Environment) (name : String) : Option (Nat × Binding) := locateIn name e.scopes

theorem find?_eq_locate? (e : Environment) (name : String) :
    e.find? name = (e.locate? name).map (·.2) := by
  obtain ⟨scopes⟩ := e
  simp only [find?, locate?]
  induction scopes with
  | nil => rfl
  | cons inner outer ih =>
    simp only [List.findSome?_cons, locateIn]
    split <;> simp_all

def typeOf? (e : Environment) (name : String) : Option DeclaredType := (e.find? name).map (·.type)

/-- Stores a value in the innermost scope that binds a name. The binding keeps
its type, and the value is widened to it. -/
def storeIn (name : String) (value : Value) : List Scope → List Scope
  | [] => []
  | inner :: outer =>
    match inner.find? name with
    | some b => inner.insert name { b with value := value.widen b.type } :: outer
    | none => inner :: storeIn name value outer

/-- Stores a value under a name whose binding is mutable. -/
def update (e : Environment) (name : String) (value : Value) : Except Refusal Environment :=
  match e.find? name with
  | none => .error .undeclared
  | some b => if b.mutable then .ok ⟨storeIn name value e.scopes⟩ else .error .immutable

end Environment

end ScriptLang
