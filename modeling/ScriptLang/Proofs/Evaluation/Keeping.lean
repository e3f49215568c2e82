import ScriptLang.Evaluation.Call
import ScriptLang.Proofs.Computation

/-!
# Relations kept by evaluation

A computation keeps a relation if it ends, however it ends, in a state related to the
one it began in. What only reports keeps every relation that lets faults be reported,
and a loop keeps what its test and body keep.
-/

namespace ScriptLang

namespace Evaluation

/-- In a scope of its own. -/
def enterScope (s : Evaluation) : Evaluation := { s with environment := s.environment.push }

def leaveScope (s : Evaluation) : Evaluation := { s with environment := s.environment.pop }

/-- In the scope and frame of a call. -/
def enterFrame (s : Evaluation) : Evaluation :=
  { s.enterScope with frameBase := s.enterScope.environment.depth - 1 }

/-- Behind a call, in the frame that begins at `base`. -/
def leaveFrame (base : Nat) (s : Evaluation) : Evaluation :=
  { s with returned := none, signals := .clear, frameBase := base }.leaveScope

end Evaluation

namespace Eval

variable {α β : Type} {r q : Evaluation → Evaluation → Prop}

/-- The state a computation ends in, also when it halts. -/
def after (x : Eval α) (s : Evaluation) : Evaluation :=
  match x s with
  | .ok _ t => t
  | .error _ t => t

/-- From whatever state, the computation ends in one related to it. -/
def Keeps (r : Evaluation → Evaluation → Prop) (x : Eval α) : Prop := ∀ s, r s (x.after s)

theorem after_ok {x : Eval α} {s t : Evaluation} {a : α} (h : x s = .ok a t) : x.after s = t := by
  rw [after, h]

theorem after_error {x : Eval α} {s t : Evaluation} {e : Halt} (h : x s = .error e t) :
    x.after s = t := by
  rw [after, h]

theorem after_bind {x : Eval α} {f : α → Eval β} {s t : Evaluation} {a : α}
    (h : x s = .ok a t) : (x >>= f).after s = (f a).after t := by
  rw [after, bind_of_ok f h, after]

/-- Reading the state changes nothing. -/
theorem after_get_bind (f : Evaluation → Eval α) (s : Evaluation) :
    (get >>= f).after s = (f s).after s := rfl

theorem after_modifyEnvironment (f : Environment → Environment) (s : Evaluation) :
    (modifyEnvironment f).after s = { s with environment := f s.environment } := rfl

/-- A value that is not used changes nothing. -/
theorem after_discard (x : Eval α) (s : Evaluation) :
    (do let _ ← x : Eval Unit).after s = x.after s := by
  cases h : x s with
  | ok a t => rw [after_bind h, after_ok h]; rfl
  | error e t => rw [after_error h, after_error (bind_of_error _ h)]

theorem after_inScope (x : Eval α) (s : Evaluation) :
    (inScope x).after s = (x.after s.enterScope).leaveScope := by
  cases h : x s.enterScope with
  | ok a t =>
    rw [after_ok h]
    exact after_ok (by rw [inScope, ← Evaluation.enterScope, h]; rfl)
  | error e t =>
    rw [after_error h]
    exact after_error (by rw [inScope, ← Evaluation.enterScope, h]; rfl)

/-- A relation that holds of nothing done, and of two steps if of each. -/
structure Composes (r : Evaluation → Evaluation → Prop) : Prop where
  refl : ∀ s, r s s
  trans : ∀ {s t u}, r s t → r t u → r s u

theorem Composes.bind {x : Eval α} {f : α → Eval β} {s : Evaluation} (hr : Composes r)
    (hx : r s (x.after s)) (hf : ∀ a t, x s = .ok a t → r t ((f a).after t)) :
    r s ((x >>= f).after s) := by
  cases hs : x s with
  | ok a t =>
    rw [after_ok hs] at hx
    rw [after_bind hs]
    exact hr.trans hx (hf a t hs)
  | error e t =>
    rw [after_error hs] at hx
    rwa [after_error (bind_of_error f hs)]

/-- Faults may be reported. -/
structure Reporting (r : Evaluation → Evaluation → Prop) : Prop extends Composes r where
  report : ∀ s fault, r s { s with diagnostics := s.diagnostics ++ [fault] }

/-- Signals may be set and cleared, and a value returned. -/
structure Signalling (r : Evaluation → Evaluation → Prop) : Prop extends Composes r where
  signal : ∀ s signals returned, r s { s with signals, returned }

namespace Keeps

variable {x : Eval α} {f : α → Eval β}

theorem weaken (h : ∀ {s t}, r s t → q s t) (hx : Keeps r x) : Keeps q x := fun s => h (hx s)

theorem pure (hr : Composes r) (a : α) : Keeps r (Pure.pure a : Eval α) := hr.refl

theorem get (hr : Composes r) : Keeps r (MonadState.get : Eval Evaluation) := hr.refl

theorem fail (hr : Composes r) (cause : Cause) (position : Position) :
    Keeps r (Eval.fail cause position : Eval α) := hr.refl

theorem outOfFuel (hr : Composes r) : Keeps r (Eval.outOfFuel : Eval α) := hr.refl

theorem modified {g : Evaluation → Evaluation} (h : ∀ s, r s (g s)) :
    Keeps r (modify g : Eval Unit) := h

theorem bind (hr : Composes r) (hx : Keeps r x) (hf : ∀ a, Keeps r (f a)) :
    Keeps r (x >>= f) := fun s => hr.bind (hx s) fun a t _ => hf a t

theorem map (hr : Composes r) (hx : Keeps r x) (g : α → β) : Keeps r (g <$> x) :=
  bind hr hx fun a => pure hr (g a)

/-! ## Reports -/

section

variable (hr : Reporting r)

include hr

theorem report (cause : Cause) (position : Position) : Keeps r (Eval.report cause position) :=
  modified fun s => hr.report s _

/-- A value, put in place of one that was reported. -/
theorem reportWith (cause : Cause) (position : Position) (a : α) :
    Keeps r (do Eval.report cause position; return a) :=
  bind hr.toComposes (report hr cause position) fun _ => pure hr.toComposes a

theorem settle (position : Position) (o : Outcome) : Keeps r (Eval.settle position o) := by
  cases o with
  | value v => exact pure hr.toComposes v
  | reported cause v => exact reportWith hr cause position v
  | failed cause => exact fail hr.toComposes cause position

theorem coerce (v : Value) (type : DeclaredType) (position : Position) :
    Keeps r (Eval.coerce v type position) := by
  unfold Eval.coerce
  split
  · exact pure hr.toComposes _
  · exact reportWith hr _ position _

theorem toBound (v : Value) (position : Position) : Keeps r (Eval.toBound v position) := by
  unfold Eval.toBound
  split
  · exact pure hr.toComposes _
  · exact reportWith hr _ position _

theorem read (name : String) (position : Position) : Keeps r (Eval.read name position) := by
  refine bind hr.toComposes (get hr.toComposes) fun s => ?_
  split
  · exact pure hr.toComposes _
  · exact reportWith hr _ position _

theorem resultOf (type : DeclaredType) (returned : Option Value) (position : Position) :
    Keeps r (Eval.resultOf type returned position) := by
  unfold Eval.resultOf
  split
  · exact pure hr.toComposes _
  · exact coerce hr _ _ position
  · exact pure hr.toComposes _

omit hr in
theorem checkStep (hr : Composes r) (step : Int64) (position : Position) :
    Keeps r (Eval.checkStep step position) := by
  unfold Eval.checkStep
  have hn : Keeps r (if step < 0 then Eval.fail (.negativeStep step) position
      else Pure.pure ()) := by
    split
    · exact fail hr _ position
    · exact pure hr ()
  dsimp only
  split
  · exact bind hr (fail hr _ position) fun _ => hn
  · exact hn

end

/-! ## Loops -/

section

variable (hr : Signalling r) {body : Eval Unit} {test : Eval Bool} (hb : Keeps r body)

include hr

theorem modifySignals (f : Signals → Signals) : Keeps r (Eval.modifySignals f) :=
  modified fun s => hr.signal s (f s.signals) s.returned

include hb

theorem lap : Keeps r (Eval.lap body) :=
  bind hr.toComposes (modifySignals hr _) fun _ => bind hr.toComposes hb fun _ =>
    bind hr.toComposes (get hr.toComposes) fun _ =>
      bind hr.toComposes (modifySignals hr _) fun _ => pure hr.toComposes _

theorem whileLoop (ht : Keeps r test) (n : Nat) : Keeps r (Eval.whileLoop test body n) := by
  induction n with
  | zero => exact outOfFuel hr.toComposes
  | succ n ih =>
    refine bind hr.toComposes ht fun go => ?_
    split
    · refine bind hr.toComposes (lap hr hb) fun again => ?_
      split
      · exact ih
      · exact pure hr.toComposes ()
    · exact pure hr.toComposes ()

theorem doWhile (ht : Keeps r test) (n : Nat) : Keeps r (Eval.doWhile body test n) := by
  induction n with
  | zero => exact outOfFuel hr.toComposes
  | succ n ih =>
    refine bind hr.toComposes (lap hr hb) fun again => ?_
    split
    · refine bind hr.toComposes ht fun go => ?_
      split
      · exact ih
      · exact pure hr.toComposes ()
    · exact pure hr.toComposes ()

theorem forLoop {counter : String} (hc : ∀ n, Keeps r (setCounter counter n))
    (range : LoopRange) (n : Nat) (i : Int64) :
    Keeps r (Eval.forLoop range counter body n i) := by
  induction n generalizing i with
  | zero => exact pure hr.toComposes ()
  | succ n ih =>
    refine bind hr.toComposes (hc i) fun _ => bind hr.toComposes (lap hr hb) fun again => ?_
    split
    · exact ih (range.next i)
    · exact pure hr.toComposes ()

end

end Keeps

/-! ## Steps -/

/-- A name in parentheses is read. -/
theorem evaluate_of_name? (call : Invocation) (laps : Nat) {n : String} :
    ∀ e : Expr, e.ungroup.name? = some n → ∃ place, evaluate call laps e = read n place
  | .name _ span, h => by
    cases h
    exact ⟨span.start, rfl⟩
  | .group inner _, h => evaluate_of_name? call laps inner h

/-- A step reads its operand, and stores it if it is a name. -/
theorem Keeps.steps {call : Invocation} {laps : Nat} {step : Step} {operand : Expr}
    {position : Position} (hr : Composes r) (he : Keeps r (evaluate call laps operand))
    (hs : ∀ name place, operand.ungroup.name? = some name →
      Keeps r (do stepNamed step (some name) (← Eval.read name place) position)) :
    Keeps r (do
      stepNamed step operand.ungroup.name? (← evaluate call laps operand) position) := by
  cases hn : operand.ungroup.name? with
  | none => exact Keeps.bind hr he fun _ => Keeps.pure hr _
  | some n =>
    obtain ⟨place, hp⟩ := evaluate_of_name? call laps operand hn
    rw [hp]
    exact hs n place hn

/-! ## Declarations -/

/-- A declaration has its value in hand or coerces one, and adds a variable. -/
theorem Keeps.declare {name : String} {constant : Bool} {position : Position} (hr : Composes r)
    (hc : ∀ v t, Keeps r (Eval.coerce v t position))
    (hd : ∀ v t, Keeps r (modifyEnvironment fun e => e.declare name v t !constant))
    (type : Option DeclaredType) (value : Option Value) :
    Keeps r (Eval.declare name constant type value position) := by
  unfold Eval.declare
  dsimp only
  split
  · exact bind hr (pure hr _) fun v => hd v _
  · exact bind hr (hc _ _) fun v => hd v _
  · exact bind hr (pure hr _) fun v => hd v _

/-- A conversion has a value, and reports at most. -/
theorem coerce_eq (v : Value) (type : DeclaredType) (position : Position) (s : Evaluation) :
    ∃ w faults, coerce v type position s =
      .ok w { s with diagnostics := s.diagnostics ++ faults } := by
  unfold coerce
  cases v.convert? type with
  | some w => exact ⟨w, [], congrArg (EStateM.Result.ok w) (by rw [List.append_nil])⟩
  | none => exact ⟨_, _, rfl⟩

/-- A declaration adds a variable, and reports at most. -/
theorem declare_eq (name : String) (constant : Bool) (type : Option DeclaredType)
    (value : Option Value) (position : Position) (s : Evaluation) :
    ∃ v t faults, declare name constant type value position s = .ok () { s with
      environment := s.environment.declare name v t !constant
      diagnostics := s.diagnostics ++ faults } := by
  have hcoerced (v : Value) (t : DeclaredType) : ∃ w faults, (do
      let w ← coerce v t position
      modifyEnvironment fun e => e.declare name w t !constant : Eval Unit) s = .ok () { s with
        environment := s.environment.declare name w t !constant
        diagnostics := s.diagnostics ++ faults } := by
    obtain ⟨w, faults, h⟩ := coerce_eq v t position s
    exact ⟨w, faults, bind_of_ok _ h⟩
  have hplain (v : Value) (t : DeclaredType) : ∃ faults,
      (modifyEnvironment fun e => e.declare name v t !constant : Eval Unit) s = .ok () { s with
        environment := s.environment.declare name v t !constant
        diagnostics := s.diagnostics ++ faults } :=
    ⟨[], congrArg (EStateM.Result.ok ()) (by rw [List.append_nil])⟩
  unfold declare
  dsimp only
  split
  · exact ⟨_, _, hplain _ _⟩
  · obtain ⟨w, h⟩ := hcoerced _ _
    exact ⟨w, _, h⟩
  · exact ⟨_, _, hplain _ _⟩

/-! ## Stores -/

/-- A store puts the value in place, or is reported. -/
theorem after_store (name : String) (v : Value) (position : Position) (s : Evaluation) :
    (∃ e, s.environment.update name v = .ok e ∧
      (store name v position).after s = { s with environment := e }) ∨
    ∃ fault, (store name v position).after s =
      { s with diagnostics := s.diagnostics ++ [fault] } := by
  rw [store, after_get_bind]
  cases s.environment.update name v with
  | ok e => exact .inl ⟨e, rfl, rfl⟩
  | error refusal => cases refusal <;> exact .inr ⟨_, rfl⟩

/-- The counter is set, or stays. -/
theorem after_setCounter (counter : String) (n : Int64) (s : Evaluation) :
    (∃ e, s.environment.update counter (.integer n) = .ok e ∧
      (setCounter counter n).after s = { s with environment := e }) ∨
    (setCounter counter n).after s = s := by
  rw [setCounter, after_modifyEnvironment]
  cases s.environment.update counter (.integer n) with
  | ok e => exact .inl ⟨e, rfl, rfl⟩
  | error refusal => exact .inr rfl

/-- What stores of the name keep, its steps keep. -/
theorem Keeps.stepNamed {name : Option String} {position : Position} (hr : Composes r)
    (hs : ∀ n ∈ name, ∀ v, Keeps r (store n v position)) (step : Step) (old : Value) :
    Keeps r (Eval.stepNamed step name old position) := by
  unfold Eval.stepNamed
  split
  · exact bind hr (hs _ rfl _) fun _ => pure hr _
  · exact pure hr _

/-- What stores of the name keep, assignments to it keep. -/
theorem Keeps.assign {target : String} {position : Position} (hr : Reporting r)
    (hs : ∀ v, Keeps r (store target v position)) (operator : AssignOperator)
    (value : Option Value) : Keeps r (Eval.assign target operator value position) := by
  have hc := hr.toComposes
  refine bind hc (get hc) fun s => ?_
  split
  · exact report hr _ position
  · split
    · exact report hr _ position
    · split
      · split
        · exact hs _
        · exact pure hc _
      · exact bind hc (coerce hr _ _ position) fun v => hs v
      · exact bind hc (settle hr position _) fun v =>
          bind hc (coerce hr v _ position) fun v => hs v

/-! ## Calls -/

/-- Binding parameters coerces their values and declares them. -/
theorem Keeps.bindParameters {position : Position} (hr : Composes r)
    (hc : ∀ v t, Keeps r (Eval.coerce v t position))
    (hd : ∀ name v t, Keeps r (modifyEnvironment fun e => e.declare name v t true))
    (ps : List Parameter) (vs : List Value) : Keeps r (Eval.bindParameters ps vs position) := by
  induction ps generalizing vs with
  | nil => cases vs <;> exact pure hr ()
  | cons p ps ih =>
    cases vs with
    | nil => exact pure hr ()
    | cons v vs =>
      exact bind hr (hc v p.type) fun w => bind hr (hd p.name w p.type) fun _ => ih vs

/-- Binding parameters never halts. -/
theorem bindParameters_ok (ps : List Parameter) (vs : List Value) (position : Position)
    (s : Evaluation) : ∃ t, bindParameters ps vs position s = .ok () t := by
  induction ps generalizing vs s with
  | nil => cases vs <;> exact ⟨s, rfl⟩
  | cons p ps ih =>
    cases vs with
    | nil => exact ⟨s, rfl⟩
    | cons v vs =>
      obtain ⟨w, _, hw⟩ := coerce_eq v p.type position s
      rw [bindParameters, bind_of_ok _ hw]
      exact ih vs _

/-- A call ends in its caller's frame. -/
theorem after_enter {run : List Stmt → Eval Unit} {f : Function} {vs : List Value}
    {position : Position} {s t : Evaluation}
    (h : bindParameters f.parameters vs position s.enterFrame = .ok () t) :
    (enter run f vs position).after s = ((run f.body.body).after t).leaveFrame s.frameBase := by
  rw [enter, after_inScope]
  change Evaluation.leaveScope (after (bindParameters f.parameters vs position >>= fun _ =>
    runFrame s.frameBase (run f.body.body)) s.enterFrame) = _
  have hb := bind_of_ok (fun _ => runFrame s.frameBase (run f.body.body)) h
  cases hr : run f.body.body t with
  | ok u v =>
    rw [after_ok hr, after_ok (hb.trans (by rw [runFrame, hr]))]
    rfl
  | error e v =>
    rw [after_error hr, after_error (hb.trans (by rw [runFrame, hr]))]
    rfl

end Eval

end ScriptLang
