import ScriptLang.Proofs.Evaluation.Keeping
import ScriptLang.Proofs.Tree.Nodes

/-!
# What evaluation does to its state

A contract relates the states before and behind a computation, however it ends. If
it holds of what changes the state, and a scope or a frame around a computation that
keeps it gives one that keeps it too, then every expression, statement and call keeps
it, however deep they nest. A contract that needs something of the program is kept by
the trees which have that throughout.
-/

namespace ScriptLang

/-- Statements may declare variables in the innermost scope, expressions may not. -/
structure Contract where
  onExpr : Evaluation → Evaluation → Prop
  onStmt : Evaluation → Evaluation → Prop

/-- What a contract has to say of the primitives of evaluation. -/
structure Contract.Lawful (k : Contract) : Prop where
  expr : Eval.Composes k.onExpr
  stmt : Eval.Composes k.onStmt
  weaken : ∀ {s t}, k.onExpr s t → k.onStmt s t
  report : ∀ s fault, k.onExpr s { s with diagnostics := s.diagnostics ++ [fault] }
  emit : ∀ s text, k.onStmt s { s with output := s.output ++ text }
  signal : ∀ s signals returned, k.onStmt s { s with signals, returned }
  store : ∀ s name value e, s.environment.update name value = .ok e →
    k.onExpr s { s with environment := e }
  declare : ∀ s name value type mutable,
    k.onStmt s { s with environment := s.environment.declare name value type mutable }
  scope : ∀ {s t}, k.onStmt s.enterScope t → k.onExpr s t.leaveScope
  frame : ∀ {s t}, k.onStmt s.enterFrame t → k.onExpr s (t.leaveFrame s.frameBase)

/-- The bodies of all functions have the property. -/
def Evaluation.Holds (p : NodeProperty) (s : Evaluation) : Prop :=
  ∀ name f, s.functions.find? name = some f → p.InStmts f.body.body

/-- What a contract has to say to be kept by the trees that have a property throughout.
It may say it of the functions that are known. -/
structure Contract.Governs (k : Contract) (p : NodeProperty) : Prop where
  expr : Eval.Reporting k.onExpr
  stmt : Eval.Signalling k.onStmt
  weaken : ∀ {s t}, k.onExpr s t → k.onStmt s t
  emit : ∀ s text, k.onStmt s { s with output := s.output ++ text }
  step : ∀ step name place position, Eval.Keeps k.onExpr do
    Eval.stepNamed step (some name) (← Eval.read name place) position
  assign : ∀ target operator value position,
    Eval.Keeps k.onExpr (Eval.assign target operator value position)
  declare : ∀ name constant type value position,
    Eval.Keeps k.onStmt (Eval.declare name constant type value position)
  parameters : ∀ ps vs position, Eval.Keeps k.onStmt (Eval.bindParameters ps vs position)
  loop : ∀ nesting laps counter range body span, p.stmt (.forLoop counter range body span) →
    Eval.Keeps k.onStmt (Eval.execute (Eval.call nesting) laps body) → ∀ bounds,
    Eval.Keeps k.onStmt (Eval.runFor bounds counter (Eval.execute (Eval.call nesting) laps body))
  scope : ∀ {s t}, k.onStmt s.enterScope t → k.onExpr s t.leaveScope
  frame : ∀ {s t}, k.onStmt s.enterFrame t → k.onExpr s (t.leaveFrame s.frameBase)
  known : ∀ {s t}, (s.Holds p → k.onExpr s t) → k.onExpr s t

namespace Contract.Governs

open Eval

variable {α β : Type} {k : Contract} {p : NodeProperty} (h : k.Governs p)

include h

theorem bind {x : Eval α} {f : α → Eval β} (hx : Keeps k.onExpr x)
    (hf : ∀ a, Keeps k.onStmt (f a)) : Keeps k.onStmt (x >>= f) :=
  Keeps.bind h.stmt.toComposes (hx.weaken h.weaken) hf

theorem inScope {x : Eval α} (hx : Keeps k.onStmt x) : Keeps k.onExpr (Eval.inScope x) := by
  intro s
  rw [after_inScope]
  exact h.scope (hx s.enterScope)

/-! ## Trees -/

section

variable {n : Nat} (hc : ∀ name vs position, Keeps k.onExpr (Eval.call n name vs position))
  (laps : Nat)

include hc

set_option linter.unusedSectionVars false

mutual

theorem evaluate : ∀ e : Expr, p.InExpr e → Keeps k.onExpr (Eval.evaluate (Eval.call n) laps e)
  | .integer .., _ => Keeps.pure h.expr.toComposes _
  | .float .., _ => Keeps.pure h.expr.toComposes _
  | .boolean .., _ => Keeps.pure h.expr.toComposes _
  | .string .., _ => Keeps.pure h.expr.toComposes _
  | .name name span, _ => Keeps.read h.expr name span.start
  | .group inner _, hp => evaluate inner hp.2
  | .binary _ left right span, hp =>
    Keeps.bind h.expr.toComposes (evaluate left hp.2.1) fun _ =>
      Keeps.bind h.expr.toComposes (evaluate right hp.2.2) fun _ =>
        Keeps.settle h.expr span.start _
  | .unary (.step step) operand span, hp =>
    Keeps.steps h.expr.toComposes (evaluate operand hp.2) fun name place _ =>
      h.step step name place span.start
  | .unary .not operand span, hp =>
    Keeps.bind h.expr.toComposes (evaluate operand hp.2) fun _ => Keeps.settle h.expr span.start _
  | .unary .negate operand span, hp =>
    Keeps.bind h.expr.toComposes (evaluate operand hp.2) fun _ => Keeps.settle h.expr span.start _
  | .unary .plus operand span, hp =>
    Keeps.bind h.expr.toComposes (evaluate operand hp.2) fun _ => Keeps.settle h.expr span.start _
  | .call callee arguments span, hp =>
    Keeps.bind h.expr.toComposes (evaluateAll arguments hp.2) fun vs => hc callee vs span.start
  | .range start stop _ _ _ _, hp =>
    Keeps.bind h.expr.toComposes (evaluate start hp.2.1) fun a =>
      Keeps.bind h.expr.toComposes (Keeps.toBound h.expr a start.span.start) fun _ =>
        Keeps.bind h.expr.toComposes (evaluate stop hp.2.2.1) fun b =>
          Keeps.bind h.expr.toComposes (Keeps.toBound h.expr b stop.span.start) fun _ =>
            Keeps.pure h.expr.toComposes _
  | .run ⟨body, _⟩ _, hp => h.inScope (evaluateBlock body hp.2 _)

theorem evaluateAll : ∀ es : List Expr, p.InExprs es →
    Keeps k.onExpr (Eval.evaluateAll (Eval.call n) laps es)
  | [], _ => Keeps.pure h.expr.toComposes _
  | e :: es, hp =>
    Keeps.bind h.expr.toComposes (evaluate e hp.1) fun _ =>
      Keeps.bind h.expr.toComposes (evaluateAll es hp.2) fun _ => Keeps.pure h.expr.toComposes _

theorem evaluateOption : ∀ e : Option Expr, p.InOption e →
    Keeps k.onExpr (Eval.evaluateOption (Eval.call n) laps e)
  | none, _ => Keeps.pure h.expr.toComposes _
  | some e, hp => Keeps.map h.expr.toComposes (evaluate e hp) some

theorem evaluateBlock : ∀ body : List Stmt, p.InStmts body → ∀ last : Value,
    Keeps k.onStmt (Eval.evaluateBlock (Eval.call n) laps body last)
  | [], _, _ => Keeps.pure h.stmt.toComposes _
  | s :: rest, hp, last => by
    have hs := execute s hp.1
    have hrest := evaluateBlock rest hp.2
    cases s with
    | expression e =>
      refine h.bind (evaluate e hp.1.2) fun v =>
        Keeps.bind h.stmt.toComposes (Keeps.get h.stmt.toComposes) fun t => ?_
      split
      · exact Keeps.pure h.stmt.toComposes v
      · exact hrest v
    | _ =>
      refine Keeps.bind h.stmt.toComposes hs fun _ =>
        Keeps.bind h.stmt.toComposes (Keeps.get h.stmt.toComposes) fun t => ?_
      split
      · exact Keeps.pure h.stmt.toComposes _
      · exact hrest _

theorem loopRange (position : Position) : ∀ e : Expr, p.InExpr e →
    Keeps k.onExpr (Eval.loopRange (Eval.call n) laps position e)
  | .group inner _, hp => loopRange position inner hp.2
  | .range start stop _ _ step _, hp =>
    Keeps.bind h.expr.toComposes (evaluate start hp.2.1) fun a =>
      Keeps.bind h.expr.toComposes (Keeps.toBound h.expr a start.span.start) fun _ =>
        Keeps.bind h.expr.toComposes (evaluate stop hp.2.2.1) fun b =>
          Keeps.bind h.expr.toComposes (Keeps.toBound h.expr b stop.span.start) fun _ =>
            Keeps.bind h.expr.toComposes (loopStep step hp.2.2.2) fun _ =>
              Keeps.pure h.expr.toComposes _
  | .integer .., _ | .float .., _ | .boolean .., _ | .string .., _ | .name .., _
  | .binary .., _ | .unary .., _ | .call .., _ | .run .., _ =>
    Keeps.fail h.expr.toComposes _ position

theorem loopStep : ∀ e : Option Expr, p.InOption e →
    Keeps k.onExpr (Eval.loopStep (Eval.call n) laps e)
  | none, _ => Keeps.pure h.expr.toComposes _
  | some e, hp =>
    Keeps.bind h.expr.toComposes (evaluate e hp) fun v =>
      Keeps.bind h.expr.toComposes (Keeps.toBound h.expr v e.span.start) fun m =>
        Keeps.bind h.expr.toComposes (Keeps.checkStep h.expr.toComposes m e.span.start) fun _ =>
          Keeps.pure h.expr.toComposes _

theorem execute : ∀ s : Stmt, p.InStmt s → Keeps k.onStmt (Eval.execute (Eval.call n) laps s)
  | .expression e, hp =>
    h.bind (evaluate e hp.2) fun _ => Keeps.pure h.stmt.toComposes _
  | .declare name constant type value span, hp =>
    h.bind (evaluateOption value hp.2) fun v => h.declare name constant type v span.start
  | .assign target operator value span, hp =>
    h.bind (evaluateOption value hp.2) fun v =>
      Keeps.weaken h.weaken (h.assign target operator v span.start)
  | .print value _ _, hp =>
    h.bind (evaluateOption value hp.2) fun _ => Keeps.modified fun s => h.emit s _
  | .block ⟨body, _⟩, hp => Keeps.weaken h.weaken (h.inScope (executeAll body hp.2))
  | .branch condition thenBody elseBody _, hp =>
    h.bind (evaluate condition hp.2.1) fun v => by
      split
      · exact execute thenBody hp.2.2.1
      · exact executeOption elseBody hp.2.2.2
  | .whileLoop condition body _, hp =>
    Keeps.whileLoop h.stmt (execute body hp.2.2)
      (Keeps.map h.stmt.toComposes (Keeps.weaken h.weaken (evaluate condition hp.2.1)) _) laps
  | .doWhile body condition _, hp =>
    Keeps.doWhile h.stmt (execute body hp.2.1)
      (Keeps.map h.stmt.toComposes (Keeps.weaken h.weaken (evaluate condition hp.2.2)) _) laps
  | .forLoop counter range body span, hp =>
    h.bind (loopRange range.span.start range hp.2.1) fun bounds =>
      h.loop n laps counter range body span hp.1 (execute body hp.2.2) bounds
  | .function _, _ => Keeps.pure h.stmt.toComposes _
  | .return value _, hp =>
    h.bind (evaluateOption value hp.2) fun v =>
      Keeps.modified fun s => h.stmt.signal s _ v
  | .break _, _ => Keeps.modifySignals h.stmt _
  | .continue _, _ => Keeps.modifySignals h.stmt _

theorem executeOption : ∀ s : Option Stmt, p.InElse s →
    Keeps k.onStmt (Eval.executeOption (Eval.call n) laps s)
  | none, _ => Keeps.pure h.stmt.toComposes _
  | some s, hp => execute s hp

theorem executeAll : ∀ body : List Stmt, p.InStmts body →
    Keeps k.onStmt (Eval.executeAll (Eval.call n) laps body)
  | [], _ => Keeps.pure h.stmt.toComposes _
  | s :: rest, hp =>
    Keeps.bind h.stmt.toComposes (execute s hp.1) fun _ =>
      Keeps.bind h.stmt.toComposes (Keeps.get h.stmt.toComposes) fun t => by
        split
        · exact Keeps.pure h.stmt.toComposes _
        · exact executeAll rest hp.2

end

end

/-! ## Calls -/

theorem enter {run : List Stmt → Eval Unit} (f : Function)
    (hr : Keeps k.onStmt (run f.body.body)) (vs : List Value) (position : Position) :
    Keeps k.onExpr (Eval.enter run f vs position) := by
  intro s
  obtain ⟨t, ht⟩ := bindParameters_ok f.parameters vs position s.enterFrame
  have hb := h.parameters f.parameters vs position s.enterFrame
  rw [after_ok ht] at hb
  rw [after_enter ht]
  exact h.frame (h.stmt.trans hb (hr t))

theorem callWith {run : List Stmt → Eval Unit}
    (hr : ∀ body, p.InStmts body → Keeps k.onStmt (run body))
    (name : String) (vs : List Value) (position : Position) :
    Keeps k.onExpr (Eval.callWith run name vs position) := by
  intro s
  refine h.known fun hs => ?_
  -- What is called is known to have the property in this state only.
  rw [Eval.callWith, after_get_bind]
  cases hf : s.functions.find? name with
  | none => exact Keeps.reportWith h.expr _ position _ s
  | some f =>
    dsimp only
    split
    · exact Keeps.bind h.expr.toComposes (h.enter f (hr _ (hs name f hf)) vs position)
        (fun v => Keeps.resultOf h.expr _ v position) s
    · exact Keeps.reportWith h.expr _ position _ s

/-- Calls keep the contract, by induction on how deep they nest. -/
theorem call (n : Nat) (name : String) (vs : List Value) (position : Position) :
    Keeps k.onExpr (Eval.call n name vs position) := by
  induction n generalizing name vs position with
  | zero => exact Keeps.outOfFuel h.expr.toComposes
  | succ n ih => exact h.callWith (fun body hp => h.executeAll ih n body hp) name vs position

end Contract.Governs

/-! ## Contracts kept by all trees -/

namespace Eval

variable {α β : Type} {k : Contract} (h : k.Lawful)

include h

theorem reporting_onExpr : Reporting k.onExpr := ⟨h.expr, h.report⟩

theorem signalling_onStmt : Signalling k.onStmt := ⟨h.stmt, h.signal⟩

theorem keeps_store (name : String) (v : Value) (position : Position) :
    Keeps k.onExpr (store name v position) := by
  intro s
  rcases after_store name v position s with ⟨e, hu, ht⟩ | ⟨fault, ht⟩
  · rw [ht]
    exact h.store s name v e hu
  · rw [ht]
    exact h.report s fault

theorem keeps_stepNamed (step : Step) (name : Option String) (old : Value) (position : Position) :
    Keeps k.onExpr (stepNamed step name old position) :=
  Keeps.stepNamed h.expr (fun n _ v => keeps_store h n v position) step old

theorem keeps_declare (name : String) (constant : Bool) (type : Option DeclaredType)
    (value : Option Value) (position : Position) :
    Keeps k.onStmt (declare name constant type value position) :=
  Keeps.declare h.stmt
    (fun v t => (Keeps.coerce (reporting_onExpr h) v t position).weaken h.weaken)
    (fun v t => Keeps.modified fun s => h.declare s name v t _) type value

theorem keeps_assign (target : String) (operator : AssignOperator) (value : Option Value)
    (position : Position) : Keeps k.onExpr (assign target operator value position) :=
  Keeps.assign (reporting_onExpr h) (fun v => keeps_store h target v position) operator value

theorem keeps_inScope {x : Eval α} (hx : Keeps k.onStmt x) : Keeps k.onExpr (inScope x) := by
  intro s
  rw [after_inScope]
  exact h.scope (hx s.enterScope)

theorem keeps_setCounter (counter : String) (n : Int64) :
    Keeps k.onExpr (setCounter counter n) := by
  intro s
  rcases after_setCounter counter n s with ⟨e, hu, ht⟩ | ht
  · rw [ht]
    exact h.store s counter _ e hu
  · rw [ht]
    exact h.expr.refl s

theorem keeps_runFor {body : Eval Unit} (hb : Keeps k.onStmt body) (range : LoopRange)
    (counter : String) : Keeps k.onStmt (runFor range counter body) := by
  have hset (n : Int64) : Keeps k.onStmt (setCounter counter n) :=
    Keeps.weaken h.weaken (keeps_setCounter h counter n)
  have hloop := Keeps.forLoop (signalling_onStmt h) hb hset
  refine Keeps.bind h.stmt (Keeps.get h.stmt) fun s => ?_
  split
  · exact hloop range _ _
  · exact Keeps.weaken h.weaken (keeps_inScope h (Keeps.bind h.stmt
      (Keeps.modified fun s => h.declare s counter _ _ _) fun _ => hloop range _ _))

theorem keeps_bindParameters (ps : List Parameter) (vs : List Value) (position : Position) :
    Keeps k.onStmt (bindParameters ps vs position) :=
  Keeps.bindParameters h.stmt
    (fun v t => (Keeps.coerce (reporting_onExpr h) v t position).weaken h.weaken)
    (fun name _ _ => Keeps.modified fun s => h.declare s name _ _ _) ps vs

/-- A lawful contract that may suppose a property of the functions that are known. -/
theorem governs_of_known {p : NodeProperty}
    (hk : ∀ {s t}, (s.Holds p → k.onExpr s t) → k.onExpr s t) : k.Governs p where
  expr := reporting_onExpr h
  stmt := signalling_onStmt h
  weaken := h.weaken
  emit := h.emit
  step := fun step name place position =>
    Keeps.bind h.expr (Keeps.read (reporting_onExpr h) name place) fun old =>
      keeps_stepNamed h step (some name) old position
  assign := keeps_assign h
  declare := keeps_declare h
  parameters := keeps_bindParameters h
  loop := fun _ _ counter _ _ _ _ hb bounds => keeps_runFor h hb bounds counter
  scope := h.scope
  frame := h.frame
  known := hk

/-- A lawful contract asks nothing of a program. -/
theorem governs_any : k.Governs .any :=
  governs_of_known h fun hk => hk fun _ f _ => NodeProperty.any_inStmts f.body.body

section

variable {n : Nat} (hc : ∀ name vs position, Keeps k.onExpr (call n name vs position)) (laps : Nat)

include hc

theorem keeps_evaluate (e : Expr) : Keeps k.onExpr (evaluate (call n) laps e) :=
  (governs_any h).evaluate hc laps e (NodeProperty.any_inExpr e)

theorem keeps_loopRange (position : Position) (e : Expr) :
    Keeps k.onExpr (loopRange (call n) laps position e) :=
  (governs_any h).loopRange hc laps position e (NodeProperty.any_inExpr e)

theorem keeps_execute (s : Stmt) : Keeps k.onStmt (execute (call n) laps s) :=
  (governs_any h).execute hc laps s (NodeProperty.any_inStmt s)

theorem keeps_executeAll (body : List Stmt) : Keeps k.onStmt (executeAll (call n) laps body) :=
  (governs_any h).executeAll hc laps body (NodeProperty.any_inStmts body)

end

theorem keeps_call (n : Nat) (name : String) (vs : List Value) (position : Position) :
    Keeps k.onExpr (call n name vs position) := (governs_any h).call n name vs position

end Eval

end ScriptLang
