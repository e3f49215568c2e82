import ScriptLang.Tree.Program

/-!
# Names that every path binds

A name is bound where it is declared, or where it is used and means nothing yet, for the
rest of the scope that this stands in. If control may skip that place, behind it the name
has strayed: it is bound, but perhaps was given no value. A part of a program is settled if
it uses no name that has strayed.
-/

namespace ScriptLang

/-- What is known of names where a part of a program stands. -/
structure Bindings where
  /-- Names that mean something for sure. -/
  bound : List String
  /-- Names that were bound, perhaps only in a scope that is left again, latest first. -/
  touched : List String
  /-- Names whose binding control may have skipped. -/
  strayed : List String
  /-- Whether a jump may have led away. -/
  jumped : Bool

namespace Bindings

variable (k k' : Bindings) (name : String)

/-- The name is bound, and was given no value yet. -/
def bind : Bindings :=
  { k with bound := name :: k.bound, touched := name :: k.touched, strayed := name :: k.strayed }

/-- The name was given a value. -/
def fill : Bindings := { k with strayed := k.strayed.filter (· ≠ name) }

/-- The name is bound and given a value. -/
def declare : Bindings := (k.bind name).fill name

/-- The name must not have strayed. -/
def meet : Option Bindings := if name ∈ k.strayed then none else some k

/-- The name must not have strayed. If it means nothing it is bound, to zero. -/
def use : Option Bindings := do
  let k ← k.meet name
  return if name ∈ k.bound then k else k.declare name

/-- Behind a scope, with `k'` at its end. -/
def leaving : Bindings := { k with jumped := k'.jumped }

/-- Behind a part that control may skip, with `k'` at its end. -/
def skipping : Bindings :=
  { k' with strayed := k'.touched.take (k'.touched.length - k.touched.length) ++ k.strayed }

/-- Behind a part that control skips by jumps only, with `k'` at its end. -/
def joining : Bindings := if k'.jumped then k.skipping k' else k'

/-- Where no jump may have led away yet. -/
def unjumped : Bindings := { k with jumped := false }

/-- With the jumps in front of `k`. -/
def rejoining : Bindings := { k' with jumped := k.jumped || k'.jumped }

def jump : Bindings := { k with jumped := true }

/-- In the body of a loop over a range, which knows the counter. -/
def counting : Bindings := { k with bound := name :: k.bound }

/-- Behind a loop over a range, with `k'` at the end of its body, which perhaps has a scope
of its own. -/
def lapping : Bindings := { k.skipping k' with bound := k.bound }

end Bindings

mutual

/-- What is known behind an expression, if it uses no name that has strayed. -/
def Expr.settle : Expr → Bindings → Option Bindings
  | .integer .., k | .float .., k | .boolean .., k | .string .., k => some k
  | .name n _, k => k.use n
  | .group e _, k => e.settle k
  | .binary _ l r _, k => do
    let k ← l.settle k
    r.settle k
  | .unary (.step _) e _, k =>
    match e.ungroup.name? with
    | some n => k.use n
    | none => e.settle k
  | .unary _ e _, k => e.settle k
  | .call _ es _, k => Expr.settleAll es k
  | .range a b _ _ _ _, k => do
    let k ← a.settle k
    b.settle k
  | .run ⟨body, _⟩ _, k => do
    let k' ← Stmt.settleAll body k
    return k.leaving k'

def Expr.settleAll : List Expr → Bindings → Option Bindings
  | [], k => some k
  | e :: es, k => do
    let k ← e.settle k
    Expr.settleAll es k

def Expr.settleOption : Option Expr → Bindings → Option Bindings
  | none, k => some k
  | some e, k => e.settle k

/-- The bounds and the step of a loop over a range. -/
def Expr.settleBounds : Expr → Bindings → Option Bindings
  | .group e _, k => e.settleBounds k
  | .range a b _ _ c _, k => do
    let k ← a.settle k
    let k ← b.settle k
    Expr.settleOption c k
  | _, k => some k

/-- What is known behind a statement, if it uses no name that has strayed. -/
def Stmt.settle : Stmt → Bindings → Option Bindings
  | .expression e, k => e.settle k
  | .declare name _ _ v _, k => do
    let k ← Expr.settleOption v k
    return k.declare name
  | .assign target _ v _, k => do
    let k ← Expr.settleOption v k
    k.meet target
  | .print v _ _, k => Expr.settleOption v k
  | .block ⟨body, _⟩, k => do
    let k' ← Stmt.settleAll body k
    return k.leaving k'
  | .branch c a b _, k => do
    let k ← c.settle k
    let k' ← a.settle k
    let k := k.skipping k'
    let k' ← Stmt.settleElse b k
    return k.skipping k'
  | .whileLoop c b _, k => do
    let k ← c.settle k
    let k' ← b.settle k
    return k.skipping k'
  | .doWhile b c _, k => do
    let start := k.unjumped
    let k' ← b.settle start
    let test := start.joining k'
    let k' ← c.settle test
    return k.rejoining (test.joining k')
  | .forLoop counter range b _, k => do
    let k ← range.settleBounds k
    let k ← k.meet counter
    let k' ← b.settle (k.counting counter)
    return k.lapping k'
  | .function _, k => some k
  | .return v _, k => do
    let k ← Expr.settleOption v k
    return k.jump
  | .break _, k | .continue _, k => some k.jump

def Stmt.settleElse : Option Stmt → Bindings → Option Bindings
  | none, k => some k
  | some b, k => b.settle k

def Stmt.settleAll : List Stmt → Bindings → Option Bindings
  | [], k => some k
  | b :: rest, k => do
    let k ← b.settle k
    Stmt.settleAll rest k

end

/-- A declaration of the top level has a cell of its own, which is zero from the start. -/
def Stmt.settleHoused : Stmt → Bindings → Option Bindings
  | .declare _ _ _ v _, k => Expr.settleOption v k
  | b, k => b.settle k

/-- A statement of the top level, to whose end jumps in it lead. -/
def Stmt.settleOutside (b : Stmt) (k : Bindings) : Option Bindings :=
  (b.settleHoused k.unjumped).map k.unjumped.joining

def Stmt.settleAllOutside : List Stmt → Bindings → Option Bindings
  | [], k => some k
  | b :: rest, k => do
    let k ← b.settleOutside k
    settleAllOutside rest k

/-- What is known where the body of a function starts: the globals and its parameters. The
statements of the top level stand in front of the body of `main`. -/
def Function.settleHead (globals : List String) (topLevel : List Stmt) (f : Function) :
    Option Bindings :=
  let k := f.parameters.foldl (·.declare ·.name) ⟨globals, [], [], false⟩
  if f.name = "main" then Stmt.settleAllOutside topLevel k else some k

def Function.settle (globals : List String) (topLevel : List Stmt) (f : Function) :
    Option Bindings := do
  let k ← f.settleHead globals topLevel
  Stmt.settleAll f.body.body k

end ScriptLang
