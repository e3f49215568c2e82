import ScriptLang.Evaluation.Call
import ScriptLang.Proofs.Correspondence
import ScriptLang.Proofs.Tree.Core

/-!
# Evaluation does not see spans and parentheses

Two states are alike if they differ at most in the positions of their diagnostics, and
in spans and parentheses of the functions they know. From alike states a tree and its
core are evaluated alike: to the same values, to the same fault, or out of fuel at once.
-/

namespace ScriptLang

namespace Evaluation

structure Alike (s t : Evaluation) : Prop where
  environment : s.environment = t.environment
  functions : ∀ name,
    (s.functions.find? name).map Function.core = (t.functions.find? name).map Function.core
  signals : s.signals = t.signals
  returned : s.returned = t.returned
  frameBase : s.frameBase = t.frameBase
  output : s.output = t.output
  diagnostics : s.diagnostics.map (·.cause) = t.diagnostics.map (·.cause)

namespace Alike

variable {s t u : Evaluation}

theorem refl (s : Evaluation) : s.Alike s := ⟨rfl, fun _ => rfl, rfl, rfl, rfl, rfl, rfl⟩

theorem symm (h : s.Alike t) : t.Alike s where
  environment := h.environment.symm
  functions name := (h.functions name).symm
  signals := h.signals.symm
  returned := h.returned.symm
  frameBase := h.frameBase.symm
  output := h.output.symm
  diagnostics := h.diagnostics.symm

theorem trans (h : s.Alike t) (h' : t.Alike u) : s.Alike u where
  environment := h.environment.trans h'.environment
  functions name := (h.functions name).trans (h'.functions name)
  signals := h.signals.trans h'.signals
  returned := h.returned.trans h'.returned
  frameBase := h.frameBase.trans h'.frameBase
  output := h.output.trans h'.output
  diagnostics := h.diagnostics.trans h'.diagnostics

theorem withEnvironment (h : s.Alike t) {e e' : Environment} (he : e = e') :
    Alike { s with environment := e } { t with environment := e' } := { h with environment := he }

theorem report (h : s.Alike t) (cause : Cause) (p p' : Position) :
    Alike { s with diagnostics := s.diagnostics ++ [⟨cause, p⟩] }
      { t with diagnostics := t.diagnostics ++ [⟨cause, p'⟩] } :=
  { h with diagnostics := by rw [List.map_append, List.map_append, h.diagnostics]; rfl }

/-- A function becomes known. -/
theorem insert (h : s.Alike t) {f f' : Function} (hf : f.core = f'.core) :
    Alike { s with functions := s.functions.insert f.name f }
      { t with functions := t.functions.insert f'.name f' } := by
  have hname : f.core.name = f'.core.name := congrArg Function.name hf
  rw [Function.core, Function.core] at hname
  refine { h with functions := fun name => ?_ }
  rw [NameMap.find?_insert, NameMap.find?_insert, hname]
  split
  · exact congrArg some hf
  · exact h.functions name

theorem contains (h : s.Alike t) (name : String) :
    s.functions.contains name = t.functions.contains name := by
  have := congrArg Option.isSome (h.functions name)
  rwa [Option.isSome_map, Option.isSome_map] at this

end Alike

end Evaluation

namespace Eval

open Evaluation (Alike)

variable {α β : Type}

/-- From alike states both computations come to the same result, or halt for the same
cause, in alike states. -/
def Matches (x y : Eval α) : Prop :=
  Parallel Alike (fun h k s t => h.cause? = k.cause? ∧ s.Alike t) Eq x y

namespace Matches

variable {x y z : Eval α} {f g : α → Eval β}

theorem symm (h : Matches x y) : Matches y x := by
  intro s t hst
  have h := h t s hst.symm
  cases hx : x t <;> cases hy : y s <;> rw [hx, hy] at h
  · cases h with
    | ok h => exact .ok ⟨h.1.symm, h.2.symm⟩
  · cases h
  · cases h
  · cases h with
    | error h => exact .error ⟨h.1.symm, h.2.symm⟩

theorem trans (h : Matches x y) (h' : Matches y z) : Matches x z := by
  intro s t hst
  have h := h s t hst
  have h' := h' t t (.refl t)
  cases hx : x s <;> cases hy : y t <;> cases hz : z t <;> rw [hx, hy] at h <;>
    rw [hy, hz] at h'
  · cases h with
    | ok h => cases h' with
      | ok h' => exact .ok ⟨h.1.trans h'.1, h.2.trans h'.2⟩
  all_goals first | (cases h; done) | (cases h'; done) | skip
  cases h with
  | error h => cases h' with
    | error h' => exact .error ⟨h.1.trans h'.1, h.2.trans h'.2⟩

theorem pure (a : α) : Matches (Pure.pure a : Eval α) (Pure.pure a) := Parallel.pure rfl

theorem bind (hx : Matches x y) (hf : ∀ a, Matches (f a) (g a)) :
    Matches (x >>= f) (y >>= g) := Parallel.bindEq hx hf

theorem get_bind {f g : Evaluation → Eval α} (h : ∀ s t, s.Alike t → Matches (f s) (g t)) :
    Matches (get >>= f) (get >>= g) := Parallel.get_bind h

theorem map {f : α → β} (hx : Matches x y) : Matches (f <$> x) (f <$> y) :=
  Parallel.map hx fun _ _ => congrArg f

theorem modify {f g : Evaluation → Evaluation} (h : ∀ s t, s.Alike t → (f s).Alike (g t)) :
    Matches (modify f) (modify g) := Parallel.modify h rfl

theorem ite {c d : Prop} [Decidable c] [Decidable d] (h : c ↔ d) {x' y' : Eval α}
    (ht : Matches x y) (hf : Matches x' y') :
    Matches (if c then x else x') (if d then y else y') :=
  Parallel.ite h (fun _ => ht) fun _ => hf

/-- Behind either branch. -/
theorem branch (c : Prop) [Decidable c] {x' y' : Eval α} (ht : Matches x y)
    (hf : Matches x' y') : Matches (if c then x else x') (if c then y else y') :=
  ite Iff.rfl ht hf

/-! ## Steps -/

theorem fail (cause : Cause) (p p' : Position) : Matches (fail cause p : Eval α) (fail cause p') :=
  Corresponds.throw fun _ _ h => ⟨rfl, h⟩

theorem outOfFuel : Matches (outOfFuel : Eval α) outOfFuel :=
  Corresponds.throw fun _ _ h => ⟨rfl, h⟩

theorem report (cause : Cause) (p p' : Position) : Matches (report cause p) (report cause p') :=
  modify fun _ _ h => h.report cause p p'

theorem emit (text : String) : Matches (emit text) (emit text) :=
  modify fun _ _ h => { h with output := by rw [h.output] }

theorem modifySignals (f : Signals → Signals) : Matches (modifySignals f) (modifySignals f) :=
  modify fun _ _ h => { h with signals := by rw [h.signals] }

theorem modifyEnvironment (f : Environment → Environment) :
    Matches (modifyEnvironment f) (modifyEnvironment f) :=
  modify fun _ _ h => h.withEnvironment (by rw [h.environment])

theorem inScope (h : Matches x y) : Matches (inScope x) (inScope y) := by
  intro s t hst
  have h := h _ _ (hst.withEnvironment (congrArg Environment.push hst.environment))
  unfold Eval.inScope
  revert h
  generalize x { s with environment := s.environment.push } = u
  generalize y { t with environment := t.environment.push } = v
  rintro (⟨ha, h⟩ | ⟨he, h⟩)
  · exact .ok ⟨ha, h.withEnvironment (congrArg Environment.pop h.environment)⟩
  · exact .error ⟨he, h.withEnvironment (congrArg Environment.pop h.environment)⟩

theorem settle (p p' : Position) : ∀ o : Outcome, Matches (settle p o) (settle p' o)
  | .value v => pure v
  | .reported cause v => (report cause p p').bind fun _ => pure v
  | .failed cause => fail cause p p'

theorem coerce (v : Value) (type : DeclaredType) (p p' : Position) :
    Matches (coerce v type p) (coerce v type p') := by
  unfold Eval.coerce
  split
  · exact pure _
  · exact (report _ p p').bind fun _ => pure _

theorem toBound (v : Value) (p p' : Position) : Matches (toBound v p) (toBound v p') := by
  unfold Eval.toBound
  split
  · exact pure _
  · exact (report _ p p').bind fun _ => pure _

theorem read (name : String) (p p' : Position) : Matches (read name p) (read name p') := by
  refine get_bind fun s t h => ?_
  rw [h.environment]
  split
  · exact pure _
  · exact (report _ p p').bind fun _ => pure _

theorem store (name : String) (v : Value) (p p' : Position) :
    Matches (store name v p) (store name v p') := by
  refine get_bind fun s t h => ?_
  rw [h.environment]
  split
  · exact modifyEnvironment _
  · exact report _ p p'
  · exact report _ p p'

theorem resultOf (type : DeclaredType) (returned : Option Value) (p p' : Position) :
    Matches (resultOf type returned p) (resultOf type returned p') := by
  unfold Eval.resultOf
  split
  · exact pure _
  · exact coerce _ _ p p'
  · exact pure _

/-! ## Loops -/

variable {test test' : Eval Bool} {body body' : Eval Unit}

theorem lap (h : Matches body body') : Matches (lap body) (lap body') :=
  (modifySignals _).bind fun _ => h.bind fun _ => get_bind fun s t hst =>
    (modifySignals _).bind fun _ => by rw [hst.signals]; exact pure _

theorem whileLoop (ht : Matches test test') (hb : Matches body body') (n : Nat) :
    Matches (whileLoop test body n) (whileLoop test' body' n) := by
  induction n with
  | zero => exact outOfFuel
  | succ n ih =>
    exact ht.bind fun again => branch _ ((lap hb).bind fun again => branch _ ih (pure _)) (pure _)

theorem doWhile (hb : Matches body body') (ht : Matches test test') (n : Nat) :
    Matches (doWhile body test n) (doWhile body' test' n) := by
  induction n with
  | zero => exact outOfFuel
  | succ n ih =>
    exact (lap hb).bind fun again => branch _ (ht.bind fun again => branch _ ih (pure _)) (pure _)

theorem forLoop (hb : Matches body body') (range : LoopRange) (counter : String) :
    ∀ (laps : Nat) (n : Int64),
      Matches (forLoop range counter body laps n) (forLoop range counter body' laps n)
  | 0, _ => pure _
  | laps + 1, n =>
    (modifyEnvironment _).bind fun _ => (lap hb).bind fun _ =>
      branch _ (forLoop hb range counter laps (range.next n)) (pure _)

theorem runFor (hb : Matches body body') (range : LoopRange) (counter : String) :
    Matches (runFor range counter body) (runFor range counter body') := by
  refine get_bind fun s t h => ?_
  have hreuses : reusesCounter s counter = reusesCounter t counter := by
    unfold reusesCounter
    rw [h.environment, h.frameBase]
  rw [hreuses]
  exact branch _ (forLoop hb range counter _ _) (inScope ((modifyEnvironment _).bind fun _ =>
    forLoop hb range counter _ _))

/-! ## Statements on variables -/

theorem declare (name : String) (constant : Bool) (type : Option DeclaredType)
    (value : Option Value) (p p' : Position) :
    Matches (declare name constant type value p) (declare name constant type value p') := by
  unfold Eval.declare
  dsimp only
  split
  · exact (pure _).bind fun _ => modifyEnvironment _
  · exact (coerce _ _ p p').bind fun _ => modifyEnvironment _
  · exact (pure _).bind fun _ => modifyEnvironment _

theorem assign (target : String) (operator : AssignOperator) (value : Option Value)
    (p p' : Position) :
    Matches (assign target operator value p) (assign target operator value p') := by
  refine get_bind fun s t h => ?_
  rw [h.environment]
  split
  · exact report _ p p'
  · refine branch _ (report _ p p') ?_
    cases operator with
    | step step =>
      dsimp only
      split
      · exact store _ _ p p'
      · exact pure _
    | set => exact (coerce _ _ p p').bind fun v => store _ v p p'
    | combine o =>
      exact (settle p p' _).bind fun v => (coerce v _ p p').bind fun w => store _ w p p'

theorem stepNamed (step : Step) (name : Option String) (old : Value) (p p' : Position) :
    Matches (stepNamed step name old p) (stepNamed step name old p') := by
  unfold Eval.stepNamed
  split
  · exact (store _ _ p p').bind fun _ => pure _
  · exact pure _

theorem checkStep (n : Int64) (p p' : Position) : Matches (checkStep n p) (checkStep n p') := by
  have hn : Matches (if n < 0 then Eval.fail (.negativeStep n) p else Pure.pure ())
      (if n < 0 then Eval.fail (.negativeStep n) p' else Pure.pure ()) :=
    branch _ (fail _ p p') (pure _)
  exact branch _ ((fail _ p p').bind fun _ => hn) hn

end Matches

/-! ## Trees -/

section

variable {call call' : Invocation}
  (hc : ∀ name vs p p', Matches (call name vs p) (call' name vs p')) (laps : Nat)

include hc

-- Functions of the recursion that only call others use the hypothesis too.
set_option linter.unusedSectionVars false

mutual

theorem evaluate_core : ∀ e : Expr, Matches (evaluate call laps e) (evaluate call' laps e.core)
  | .integer .. | .float .. | .boolean .. | .string .. => .pure _
  | .name name _ => .read name _ _
  | .group inner _ => evaluate_core inner
  | .binary _ left right _ =>
    (evaluate_core left).bind fun _ => (evaluate_core right).bind fun _ => .settle _ _ _
  | .unary (.step step) operand _ => by
    rw [Expr.core, evaluate, evaluate, Expr.ungroup_core, Expr.name?_core]
    exact (evaluate_core operand).bind fun old => .stepNamed step _ old _ _
  | .unary .not operand _ | .unary .negate operand _ | .unary .plus operand _ =>
    (evaluate_core operand).bind fun _ => .settle _ _ _
  | .call callee arguments _ => (evaluateAll_core arguments).bind fun vs => hc callee vs _ _
  | .range start stop _ _ _ _ =>
    (evaluate_core start).bind fun a => (Matches.toBound a _ _).bind fun _ =>
      (evaluate_core stop).bind fun b => (Matches.toBound b _ _).bind fun _ => .pure _
  | .run ⟨body, _⟩ _ => (evaluateBlock_core body _).inScope

theorem evaluateAll_core : ∀ es : List Expr,
    Matches (evaluateAll call laps es) (evaluateAll call' laps (Expr.coreList es))
  | [] => .pure _
  | e :: es => (evaluate_core e).bind fun _ => (evaluateAll_core es).bind fun _ => .pure _

theorem evaluateOption_core : ∀ e : Option Expr,
    Matches (evaluateOption call laps e) (evaluateOption call' laps (Expr.coreOption e))
  | none => .pure _
  | some e => (evaluate_core e).map

theorem evaluateBlock_core : ∀ (body : List Stmt) (last : Value),
    Matches (evaluateBlock call laps body last) (evaluateBlock call' laps (Stmt.coreList body) last)
  | [], _ => .pure _
  | s :: rest, last => by
    have hs := execute_core s
    have hrest := evaluateBlock_core rest
    have hbehind : ∀ v w, Matches
        (do if (← get).signals.any then return v else evaluateBlock call laps rest w)
        (do
          if (← get).signals.any then return v
          else evaluateBlock call' laps (Stmt.coreList rest) w) := fun v w =>
      .get_bind fun s t h => by
        rw [h.signals]
        exact .branch _ (.pure _) (hrest w)
    cases s with
    | expression e => exact (evaluate_core e).bind fun v => hbehind v v
    | block b => cases b; exact hs.bind fun _ => hbehind _ _
    | function f => obtain ⟨_, _, _, ⟨_, _⟩, _⟩ := f; exact hs.bind fun _ => hbehind _ _
    | _ => exact hs.bind fun _ => hbehind _ _

theorem loopRange_core (p p' : Position) : ∀ e : Expr,
    Matches (loopRange call laps p e) (loopRange call' laps p' e.core)
  | .group inner _ => loopRange_core p p' inner
  | .range start stop _ _ step _ =>
    (evaluate_core start).bind fun a => (Matches.toBound a _ _).bind fun _ =>
      (evaluate_core stop).bind fun b => (Matches.toBound b _ _).bind fun _ =>
        (loopStep_core step).bind fun _ => .pure _
  | .integer .. | .float .. | .boolean .. | .string .. | .name .. | .binary .. | .unary ..
  | .call .. | .run ⟨_, _⟩ _ => .fail _ p p'

theorem loopStep_core : ∀ e : Option Expr,
    Matches (loopStep call laps e) (loopStep call' laps (Expr.coreOption e))
  | none => .pure _
  | some e =>
    (evaluate_core e).bind fun v => (Matches.toBound v _ _).bind fun n =>
      (Matches.checkStep n _ _).bind fun _ => .pure _

theorem execute_core : ∀ s : Stmt, Matches (execute call laps s) (execute call' laps s.core)
  | .expression e => (evaluate_core e).bind fun _ => .pure _
  | .declare name constant type value _ =>
    (evaluateOption_core value).bind fun v => .declare name constant type v _ _
  | .assign target operator value _ =>
    (evaluateOption_core value).bind fun v => .assign target operator v _ _
  | .print value _ _ => (evaluateOption_core value).bind fun _ => .emit _
  | .block ⟨body, _⟩ => (executeAll_core body).inScope
  | .branch condition thenBody elseBody _ =>
    (evaluate_core condition).bind fun _ => .branch _ (execute_core thenBody)
      (executeOption_core elseBody)
  | .whileLoop condition body _ => .whileLoop (evaluate_core condition).map (execute_core body) laps
  | .doWhile body condition _ => .doWhile (execute_core body) (evaluate_core condition).map laps
  | .forLoop counter range body _ =>
    (loopRange_core _ _ range).bind fun bounds => .runFor (execute_core body) bounds counter
  | .function ⟨_, _, _, ⟨_, _⟩, _⟩ => .pure _
  | .return value _ => (evaluateOption_core value).bind fun _ => .modify fun _ _ h =>
    { h with returned := rfl, signals := by rw [h.signals] }
  | .break _ | .continue _ => .modifySignals _

theorem executeOption_core : ∀ s : Option Stmt,
    Matches (executeOption call laps s) (executeOption call' laps (Stmt.coreOption s))
  | none => .pure _
  | some s => execute_core s

theorem executeAll_core : ∀ body : List Stmt,
    Matches (executeAll call laps body) (executeAll call' laps (Stmt.coreList body))
  | [] => .pure _
  | s :: rest => (execute_core s).bind fun _ => .get_bind fun s t h => by
    rw [h.signals]
    exact .branch _ (.pure _) (executeAll_core rest)

end

end

/-! ## Calls -/

theorem matches_bindParameters (p p' : Position) : ∀ (ps : List Parameter) (vs : List Value),
    Matches (bindParameters ps vs p) (bindParameters ps vs p')
  | [], _ | _ :: _, [] => .pure _
  | q :: ps, v :: vs => (Matches.coerce v q.type p p').bind fun _ =>
    (Matches.modifyEnvironment _).bind fun _ => matches_bindParameters p p' ps vs

theorem matches_runFrame (base : Nat) {body body' : Eval Unit} (h : Matches body body') :
    Matches (runFrame base body) (runFrame base body') := by
  intro s t hst
  have h := h s t hst
  unfold runFrame
  revert h
  generalize body s = u
  generalize body' t = v
  rintro (⟨-, h⟩ | ⟨he, h⟩)
  · exact .ok ⟨h.returned, { h with signals := rfl, returned := rfl, frameBase := rfl }⟩
  · exact .error ⟨he, { h with signals := rfl, returned := rfl, frameBase := rfl }⟩

theorem matches_enter {run run' : List Stmt → Eval Unit}
    (hr : ∀ body, Matches (run body) (run' (Stmt.coreList body))) (f : Function)
    (vs : List Value) (p p' : Position) :
    Matches (enter run f vs p) (enter run' f.core vs p') := by
  refine .inScope (.get_bind fun s t h => ?_)
  rw [h.frameBase]
  refine .bind (.modify fun s t h => { h with frameBase := ?_ }) fun _ =>
    (matches_bindParameters p p' f.parameters vs).bind fun _ =>
      matches_runFrame t.frameBase (hr f.body.body)
  change s.environment.depth - 1 = t.environment.depth - 1
  rw [h.environment]

theorem callWith_core {run run' : List Stmt → Eval Unit}
    (hr : ∀ body, Matches (run body) (run' (Stmt.coreList body)))
    (hr' : ∀ body, Matches (run' body) (run' (Stmt.coreList body)))
    (name : String) (vs : List Value) (p p' : Position) :
    Matches (callWith run name vs p) (callWith run' name vs p') := by
  refine .get_bind fun s t h => ?_
  have hf := h.functions name
  cases hs : s.functions.find? name with
  | none =>
    rw [hs] at hf
    rw [Option.map_eq_none_iff.mp hf.symm]
    exact (Matches.report _ p p').bind fun _ => .pure _
  | some f =>
    rw [hs] at hf
    obtain ⟨f', ht, hcore⟩ := Option.map_eq_some_iff.mp hf.symm
    rw [ht]
    have hparameters : f'.core.parameters = f.core.parameters := congrArg _ hcore
    have hreturns : f'.core.returns = f.core.returns := congrArg _ hcore
    rw [Function.core, Function.core] at hparameters hreturns
    dsimp only
    rw [hparameters, hreturns]
    -- The known functions differ, but both are run like their common core.
    have henter := (matches_enter hr f vs p p').trans
      (hcore ▸ matches_enter hr' f' vs p' p').symm
    exact .branch _ (henter.bind fun v => .resultOf _ v p p')
      ((Matches.report _ p p').bind fun _ => .pure _)

theorem matches_call (n : Nat) (name : String) (vs : List Value) (p p' : Position) :
    Matches (call n name vs p) (call n name vs p') := by
  induction n generalizing name vs p p' with
  | zero => exact .outOfFuel
  | succ n ih =>
    have hrun := fun body => executeAll_core ih n body
    exact callWith_core hrun hrun name vs p p'

end Eval

end ScriptLang
