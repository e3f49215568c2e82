import ScriptLang.Proofs.Evaluation.Inheritance
import ScriptLang.Proofs.Tree.WellFormed

/-!
# What stops a well-formed program

All problems but a few are reported, and evaluation goes on. A well-formed program is
stopped only by numbers that it computed: a divisor that is zero, or the step of a
`for` that is not positive. The one other fault, a `for` over no range, would come from
its tree. What is reported, and what stops the program, is said of the start of a node.
-/

namespace ScriptLang

/-- Whether a fault comes from the numbers a program computes. -/
def Cause.IsArithmetic : Cause → Prop
  | .divisionByZero | .moduloByZero | .zeroStep | .negativeStep _ => True
  | _ => False

section

variable {cause : Cause} {left right operand : Value}

theorem Arithmetic.isArithmetic_of_onNumbers {operator : Arithmetic}
    (h : operator.onNumbers left right = .failed cause) : cause.IsArithmetic := by
  unfold onNumbers at h
  split at h
  · next l r =>
    cases operator with
    | divide | modulo =>
      simp only [onIntegers] at h
      split at h
      · cases h
        trivial
      · cases h
    | _ => cases h
  · split at h <;> cases h

theorem Arithmetic.isArithmetic_of_apply {operator : Arithmetic}
    (h : operator.apply left right = .failed cause) : cause.IsArithmetic := by
  unfold apply at h
  split at h
  · cases h
  · cases h
  · exact isArithmetic_of_onNumbers h

/-- Comparisons never fail. -/
theorem Comparison.apply_ne_failed {operator : Comparison} :
    operator.apply left right ≠ .failed cause := by
  unfold apply
  split
  case h_4 => split <;> exact nofun
  case h_5 => split <;> exact nofun
  all_goals exact nofun

/-- Operators fail on a divisor of zero, and on nothing else. -/
theorem BinaryOperator.isArithmetic_of_apply {operator : BinaryOperator}
    (h : operator.apply left right = .failed cause) : cause.IsArithmetic := by
  cases operator with
  | arithmetic o => exact Arithmetic.isArithmetic_of_apply h
  | comparison o => exact absurd h Comparison.apply_ne_failed
  | logical o => cases o <;> cases h

theorem UnaryOperator.apply_ne_failed {operator : UnaryOperator} :
    operator.apply operand ≠ .failed cause := by
  unfold apply
  split <;> exact nofun

end

/-- The known functions are well-formed, they and all that was reported are where a property
of positions holds. -/
structure Evaluation.Placed (P : Position → Prop) (s : Evaluation) : Prop where
  functions : s.Holds (wellPlaced P)
  diagnostics : ∀ f ∈ s.diagnostics, P f.position

theorem Evaluation.Placed.reported {P : Position → Prop} {s : Evaluation} (hs : s.Placed P)
    (cause : Cause) {position : Position} (hp : P position) :
    Placed P { s with diagnostics := s.diagnostics ++ [⟨cause, position⟩] } :=
  ⟨hs.functions, List.forall_mem_append.mpr ⟨hs.diagnostics, List.forall_mem_singleton.mpr hp⟩⟩

namespace Eval

variable {α β : Type} {P : Position → Prop}

/-- A result among well-formed functions, no fuel any more, or a fault of the numbers computed
or for want of a `main`, and nothing reported but where the property holds. -/
inductive EndsSafely (P : Position → Prop) : EStateM.Result Halt Evaluation α → Prop
  | ok {a : α} {t : Evaluation} : t.Placed P → EndsSafely P (.ok a t)
  | fault {f : Fault} {t : Evaluation} : f.cause = .missingMain ∨ f.cause.IsArithmetic →
    P f.position → t.Placed P → EndsSafely P (.error (.fault f) t)
  | outOfFuel {t : Evaluation} : t.Placed P → EndsSafely P (.error .outOfFuel t)

/-- Among well-formed functions, the computation ends safely if it ends. -/
def Safe (P : Position → Prop) (x : Eval α) : Prop :=
  ∀ s : Evaluation, s.Placed P → EndsSafely P (x s)

namespace Safe

variable {x : Eval α}

theorem pure (a : α) : Safe P (Pure.pure a : Eval α) := fun _ hs => .ok hs

theorem outOfFuel : Safe P (Eval.outOfFuel : Eval α) := fun _ hs => .outOfFuel hs

theorem bind {f : α → Eval β} (hx : Safe P x) (hf : ∀ a, Safe P (f a)) : Safe P (x >>= f) := by
  intro s hs
  have h := hx s hs
  cases hxs : x s with
  | ok a t =>
    rw [hxs] at h
    cases h with
    | ok ht =>
      rw [bind_of_ok f hxs]
      exact hf a t ht
  | error e t =>
    rw [hxs] at h
    rw [bind_of_error f hxs]
    cases h with
    | fault hc hp ht => exact .fault hc hp ht
    | outOfFuel ht => exact .outOfFuel ht

theorem map (hx : Safe P x) (f : α → β) : Safe P (f <$> x) := by
  rw [map_eq_pure_bind]
  exact bind hx fun _ => pure _

/-- What is read of the state is that its functions are well-formed. -/
theorem get_bind {f : Evaluation → Eval β} (hf : ∀ s, s.Holds (wellPlaced P) → Safe P (f s)) :
    Safe P (get >>= f) := fun s hs => hf s hs.functions s hs

theorem ite {c : Prop} [Decidable c] {y : Eval α} (hx : Safe P x) (hy : Safe P y) :
    Safe P (if c then x else y) := by
  split
  · exact hx
  · exact hy

theorem modified {g : Evaluation → Evaluation} (hf : ∀ s, (g s).functions = s.functions)
    (hd : ∀ s, (g s).diagnostics = s.diagnostics) : Safe P (modify g : Eval Unit) :=
  fun s hs => .ok ⟨fun name f h => hs.functions name f (hf s ▸ h), by
    rw [hd]
    exact hs.diagnostics⟩

theorem modifySignals (f : Signals → Signals) : Safe P (Eval.modifySignals f) :=
  modified (fun _ => rfl) fun _ => rfl

theorem modifyEnvironment (f : Environment → Environment) : Safe P (Eval.modifyEnvironment f) :=
  modified (fun _ => rfl) fun _ => rfl

/-! ## Operations -/

section

variable {position : Position} (hp : P position)

include hp

theorem fail {cause : Cause} (h : cause.IsArithmetic) :
    Safe P (Eval.fail cause position : Eval α) := fun _ hs => .fault (.inr h) hp hs

theorem report (cause : Cause) : Safe P (Eval.report cause position) :=
  fun _ hs => .ok (hs.reported cause hp)

theorem reportWith (cause : Cause) (a : α) :
    Safe P (do Eval.report cause position; return a) :=
  bind (report hp cause) fun _ => pure a

theorem settle {o : Outcome} (ho : ∀ cause, o = .failed cause → cause.IsArithmetic) :
    Safe P (Eval.settle position o) := by
  cases o with
  | value v => exact pure v
  | reported cause v => exact reportWith hp cause v
  | failed cause => exact fail hp (ho cause rfl)

theorem coerce (v : Value) (type : DeclaredType) : Safe P (Eval.coerce v type position) := by
  unfold Eval.coerce
  split
  · exact pure _
  · exact reportWith hp _ _

theorem toBound (v : Value) : Safe P (Eval.toBound v position) := by
  unfold Eval.toBound
  split
  · exact pure _
  · exact reportWith hp _ _

theorem read (name : String) : Safe P (Eval.read name position) := by
  refine get_bind fun s _ => ?_
  split
  · exact pure _
  · exact reportWith hp _ _

theorem store (name : String) (v : Value) : Safe P (Eval.store name v position) := by
  refine get_bind fun s _ => ?_
  split
  · exact modifyEnvironment _
  · exact report hp _
  · exact report hp _

theorem stepNamed (step : Step) (name : Option String) (old : Value) :
    Safe P (Eval.stepNamed step name old position) := by
  unfold Eval.stepNamed
  split
  · exact bind (store hp _ _) fun _ => pure _
  · exact pure _

/-- A step that is not positive stops a run. -/
theorem checkStep (step : Int64) : Safe P (Eval.checkStep step position) := by
  have hn : Safe P (if step < 0 then Eval.fail (.negativeStep step) position
      else Pure.pure ()) := ite (fail hp trivial) (pure ())
  unfold Eval.checkStep
  dsimp only
  split
  · exact bind (fail hp trivial) fun _ => hn
  · exact hn

theorem declare (name : String) (constant : Bool) (type : Option DeclaredType)
    (value : Option Value) : Safe P (Eval.declare name constant type value position) := by
  unfold Eval.declare
  dsimp only
  split
  · exact bind (pure _) fun _ => modifyEnvironment _
  · exact bind (coerce hp _ _) fun _ => modifyEnvironment _
  · exact bind (pure _) fun _ => modifyEnvironment _

theorem assign (target : String) (operator : AssignOperator) (value : Option Value) :
    Safe P (Eval.assign target operator value position) := by
  refine get_bind fun s _ => ?_
  split
  · exact report hp _
  · split
    · exact report hp _
    · split
      · split
        · exact store hp target _
        · exact pure ()
      · exact bind (coerce hp _ _) fun v => store hp target v
      · exact bind (settle hp fun _ => Arithmetic.isArithmetic_of_apply) fun v =>
          bind (coerce hp v _) fun v => store hp target v

end

theorem inScope (hx : Safe P x) : Safe P (Eval.inScope x) := by
  intro s hs
  have h := hx s.enterScope ⟨hs.functions, hs.diagnostics⟩
  rw [Eval.inScope, ← Evaluation.enterScope]
  revert h
  generalize x s.enterScope = r
  rintro (ht | ⟨hc, hp, ht⟩ | ht)
  · exact .ok ⟨ht.functions, ht.diagnostics⟩
  · exact .fault hc hp ⟨ht.functions, ht.diagnostics⟩
  · exact .outOfFuel ⟨ht.functions, ht.diagnostics⟩

/-! ## Loops -/

section

variable {body : Eval Unit} {test : Eval Bool} (hb : Safe P body)

include hb

theorem lap : Safe P (Eval.lap body) :=
  bind (modifySignals _) fun _ => bind hb fun _ => get_bind fun _ _ =>
    bind (modifySignals _) fun _ => pure _

theorem whileLoop (ht : Safe P test) (n : Nat) : Safe P (Eval.whileLoop test body n) := by
  induction n with
  | zero => exact outOfFuel
  | succ n ih =>
    exact bind ht fun _ => ite (bind (lap hb) fun _ => ite ih (pure ())) (pure ())

theorem doWhile (ht : Safe P test) (n : Nat) : Safe P (Eval.doWhile body test n) := by
  induction n with
  | zero => exact outOfFuel
  | succ n ih =>
    exact bind (lap hb) fun _ => ite (bind ht fun _ => ite ih (pure ())) (pure ())

theorem forLoop (range : LoopRange) (counter : String) (count : Nat) (n : Int64) :
    Safe P (Eval.forLoop range counter body count n) := by
  induction count generalizing n with
  | zero => exact pure ()
  | succ count ih =>
    exact bind (modifyEnvironment _) fun _ => bind (lap hb) fun _ =>
      ite (ih (range.next n)) (pure ())

theorem runFor (range : LoopRange) (counter : String) :
    Safe P (Eval.runFor range counter body) :=
  get_bind fun _ _ => ite (forLoop hb range counter _ _)
    (inScope (bind (modifyEnvironment _) fun _ => forLoop hb range counter _ _))

end

/-! ## Trees -/

section

variable {call : Invocation}
  (hc : ∀ name vs position, P position → Safe P (call name vs position))
  (laps : Nat)

include hc

set_option linter.unusedSectionVars false

mutual

theorem evaluate : ∀ e : Expr, (wellPlaced P).InExpr e → Safe P (Eval.evaluate call laps e)
  | .integer .., _ => pure _
  | .float .., _ => pure _
  | .boolean .., _ => pure _
  | .string .., _ => pure _
  | .name name _, hp => read hp.2 name
  | .group inner _, hp => evaluate inner hp.2
  | .binary _ left right _, hp =>
    bind (evaluate left hp.2.1) fun _ => bind (evaluate right hp.2.2) fun _ =>
      settle hp.1.2 fun _ => BinaryOperator.isArithmetic_of_apply
  | .unary (.step step) operand _, hp =>
    bind (evaluate operand hp.2) fun old => stepNamed hp.1.2 step _ old
  | .unary .not operand _, hp =>
    bind (evaluate operand hp.2) fun _ =>
      settle hp.1.2 fun _ h => absurd h UnaryOperator.apply_ne_failed
  | .unary .negate operand _, hp =>
    bind (evaluate operand hp.2) fun _ =>
      settle hp.1.2 fun _ h => absurd h UnaryOperator.apply_ne_failed
  | .unary .plus operand _, hp =>
    bind (evaluate operand hp.2) fun _ =>
      settle hp.1.2 fun _ h => absurd h UnaryOperator.apply_ne_failed
  | .call callee arguments _, hp =>
    bind (evaluateAll arguments hp.2) fun vs => hc callee vs _ hp.1.2
  | .range start stop _ _ _ _, hp =>
    bind (evaluate start hp.2.1) fun a => bind (toBound (start_of_wellPlaced hp.2.1) a) fun _ =>
      bind (evaluate stop hp.2.2.1) fun b => bind (toBound (start_of_wellPlaced hp.2.2.1) b) fun _ => pure _
  | .run ⟨body, _⟩ _, hp => inScope (evaluateBlock body hp.2 _)

theorem evaluateAll : ∀ es : List Expr, (wellPlaced P).InExprs es →
    Safe P (Eval.evaluateAll call laps es)
  | [], _ => pure _
  | e :: es, hp => bind (evaluate e hp.1) fun _ => bind (evaluateAll es hp.2) fun _ => pure _

theorem evaluateOption : ∀ e : Option Expr, (wellPlaced P).InOption e →
    Safe P (Eval.evaluateOption call laps e)
  | none, _ => pure _
  | some e, hp => map (evaluate e hp) some

theorem evaluateBlock : ∀ body : List Stmt, (wellPlaced P).InStmts body → ∀ last : Value,
    Safe P (Eval.evaluateBlock call laps body last)
  | [], _, _ => pure _
  | s :: rest, hp, last => by
    have hs := execute s hp.1
    have hrest := evaluateBlock rest hp.2
    cases s with
    | expression e =>
      exact bind (evaluate e hp.1.2) fun v => get_bind fun _ _ => ite (pure v) (hrest v)
    | _ => exact bind hs fun _ => get_bind fun _ _ => ite (pure _) (hrest _)

/-- The range of a `for` is there, in whatever parentheses. -/
theorem loopRange (position : Position) : ∀ e : Expr, (wellPlaced P).InExpr e → e.ungroup.isRange →
    Safe P (Eval.loopRange call laps position e)
  | .group inner _, hp, hr => loopRange position inner hp.2 hr
  | .range start stop _ _ step _, hp, _ =>
    bind (evaluate start hp.2.1) fun a => bind (toBound (start_of_wellPlaced hp.2.1) a) fun _ =>
      bind (evaluate stop hp.2.2.1) fun b => bind (toBound (start_of_wellPlaced hp.2.2.1) b) fun _ =>
        bind (loopStep step hp.2.2.2) fun _ => pure _

theorem loopStep : ∀ e : Option Expr, (wellPlaced P).InOption e → Safe P (Eval.loopStep call laps e)
  | none, _ => pure _
  | some e, hp =>
    bind (evaluate e hp) fun v => bind (toBound (start_of_wellPlaced hp) v) fun m =>
      bind (checkStep (start_of_wellPlaced hp) m) fun _ => pure _

theorem execute : ∀ s : Stmt, (wellPlaced P).InStmt s → Safe P (Eval.execute call laps s)
  | .expression e, hp => bind (evaluate e hp.2) fun _ => pure ()
  | .declare name constant type value _, hp =>
    bind (evaluateOption value hp.2) fun v => declare hp.1.2 name constant type v
  | .assign target operator value _, hp =>
    bind (evaluateOption value hp.2) fun v => assign hp.1.2 target operator v
  | .print value _ _, hp => bind (evaluateOption value hp.2) fun _ => modified (fun _ => rfl) fun _ => rfl
  | .block ⟨body, _⟩, hp => inScope (executeAll body hp.2)
  | .branch condition thenBody elseBody _, hp =>
    bind (evaluate condition hp.2.1) fun _ =>
      ite (execute thenBody hp.2.2.1) (executeOption elseBody hp.2.2.2)
  | .whileLoop condition body _, hp =>
    whileLoop (execute body hp.2.2) (map (evaluate condition hp.2.1) _) laps
  | .doWhile body condition _, hp =>
    doWhile (execute body hp.2.1) (map (evaluate condition hp.2.2) _) laps
  | .forLoop counter range body _, hp =>
    bind (loopRange range.span.start range hp.2.1 hp.1.1) fun bounds =>
      runFor (execute body hp.2.2) bounds counter
  | .function _, _ => pure ()
  | .return value _, hp => bind (evaluateOption value hp.2) fun _ => modified (fun _ => rfl) fun _ => rfl
  | .break _, _ => modifySignals _
  | .continue _, _ => modifySignals _

theorem executeOption : ∀ s : Option Stmt, (wellPlaced P).InElse s →
    Safe P (Eval.executeOption call laps s)
  | none, _ => pure ()
  | some s, hp => execute s hp

theorem executeAll : ∀ body : List Stmt, (wellPlaced P).InStmts body →
    Safe P (Eval.executeAll call laps body)
  | [], _ => pure ()
  | s :: rest, hp =>
    bind (execute s hp.1) fun _ => get_bind fun _ _ => ite (pure ()) (executeAll rest hp.2)

end

end

/-! ## Calls -/

theorem bindParameters {position : Position} (hp : P position) :
    ∀ (ps : List Parameter) (vs : List Value), Safe P (Eval.bindParameters ps vs position)
  | [], [] | [], _ :: _ | _ :: _, [] => pure ()
  | p :: ps, v :: vs =>
    bind (coerce hp v p.type) fun _ => bind (modifyEnvironment _) fun _ => bindParameters hp ps vs

theorem runFrame {body : Eval Unit} (hb : Safe P body) (base : Nat) :
    Safe P (Eval.runFrame base body) := by
  intro s hs
  have h := hb s hs
  unfold Eval.runFrame
  revert h
  generalize body s = r
  rintro (ht | ⟨hc, hp, ht⟩ | ht)
  · exact .ok ⟨ht.functions, ht.diagnostics⟩
  · exact .fault hc hp ⟨ht.functions, ht.diagnostics⟩
  · exact .outOfFuel ⟨ht.functions, ht.diagnostics⟩

theorem resultOf (type : DeclaredType) (returned : Option Value) {position : Position}
    (hp : P position) : Safe P (Eval.resultOf type returned position) := by
  unfold Eval.resultOf
  split
  · exact pure _
  · exact coerce hp _ _
  · exact pure _

/-- The body of a call is well-formed, whatever function it is a body of. -/
theorem callWith {run : List Stmt → Eval Unit}
    (hr : ∀ body, (wellPlaced P).InStmts body → Safe P (run body)) (name : String)
    (vs : List Value) {position : Position} (hp : P position) :
    Safe P (Eval.callWith run name vs position) := by
  -- What is called is well-formed because it is known in this state.
  refine get_bind fun s hs => ?_
  cases hf : s.functions.find? name with
  | none => exact reportWith hp _ _
  | some f =>
    have henter : Safe P (Eval.enter run f vs position) :=
      inScope (get_bind fun _ _ => bind (modified (fun _ => rfl) fun _ => rfl) fun _ =>
        bind (bindParameters hp _ _) fun _ => runFrame (hr _ (hs name f hf)) _)
    exact ite (bind henter fun _ => resultOf _ _ hp) (reportWith hp _ _)

/-- Calls are safe, by induction on how deep they nest. -/
theorem call (n : Nat) (name : String) (vs : List Value) (position : Position)
    (hp : P position) : Safe P (Eval.call n name vs position) := by
  induction n generalizing name vs position with
  | zero => exact outOfFuel
  | succ n ih => exact callWith (fun body hb => executeAll ih n body hb) name vs hp

theorem runTopLevel (fuel : Nat) {body : List Stmt} (hb : (wellPlaced P).InStmts body) :
    Safe P (Eval.runTopLevel fuel body) := by
  induction body with
  | nil => exact pure ()
  | cons b rest ih =>
    exact bind (execute (call fuel) fuel b hb.1) fun _ =>
      bind (modified (fun _ => rfl) fun _ => rfl) fun _ => ih hb.2

/-- A function that becomes known is well-formed, as those that are known. -/
theorem register {f : Function} (hf : (wellPlaced P).InStmt (.function f)) :
    Safe P (Eval.register f) := by
  have hinsert : Safe P (modify fun s : Evaluation =>
      { s with functions := s.functions.insert f.name f } : Eval Unit) := by
    refine fun s hs => .ok ⟨fun name g hg => ?_, hs.diagnostics⟩
    rw [NameMap.find?_insert] at hg
    split at hg
    · cases hg
      obtain ⟨_, _, _, ⟨_, _⟩, _⟩ := f
      exact hf.2
    · exact hs.functions name g hg
  have hp : P f.span.start := (NodeProperty.stmt_of_inStmt hf).2
  exact get_bind fun _ _ => ite (bind (report hp _) fun _ => hinsert)
    (bind (pure ()) fun _ => hinsert)

theorem registerAll {fs : List Function} (hf : ∀ f ∈ fs, (wellPlaced P).InStmt (.function f)) :
    Safe P (Eval.registerAll fs) := by
  induction fs with
  | nil => exact pure ()
  | cons f fs ih =>
    exact bind (register (hf f List.mem_cons_self)) fun _ =>
      ih fun g hg => hf g (List.mem_cons_of_mem _ hg)

theorem run (fuel : Nat) {p : Program} (h : (wellPlaced P).InProgram p) (hp : P p.span.start) :
    Safe P (Eval.run fuel p) := by
  have hfunctions : ∀ f ∈ p.functions, (wellPlaced P).InStmt (.function f) := by
    intro f hf
    obtain ⟨b, hb, hfb⟩ := List.mem_filterMap.mp hf
    cases b with
    | function g =>
      cases hfb
      exact NodeProperty.inStmts_iff.mp h _ hb
    | _ => cases hfb
  refine bind (registerAll hfunctions) fun _ =>
    bind (runTopLevel fuel (NodeProperty.inStmts_topLevel h)) fun _ => get_bind fun _ _ =>
      ite (bind (call fuel "main" [] p.span.start hp) fun _ => pure ()) ?_
  exact fun _ hs => .fault (.inl rfl) hp hs

end Safe

end Eval

variable {P : Position → Prop}

theorem Evaluation.placed_new : Evaluation.new.Placed P := ⟨holds_new, nofun⟩

/-- A run of a well-formed program fails if there is no `main`, or on a number it computed. -/
theorem Program.cause_of_run {p : Program} (h : wellFormed.InProgram p) {fuel : Nat} {f : Fault}
    {s : Evaluation} (hr : p.run fuel = .error (.fault f) s) :
    f.cause = .missingMain ∨ f.cause.IsArithmetic := by
  have hends := Eval.Safe.run fuel (wellPlaced_of_wellFormed (fun _ => trivial) h) trivial _
    Evaluation.placed_new
  rw [← Program.run, hr] at hends
  cases hends with
  | fault hc => exact hc

end ScriptLang
