import ScriptLang.Proofs.Evaluation.Reach
import ScriptLang.Proofs.Tree.Nodes

/-!
# Signals behind loops and calls

A call starts its body with the signals that are pending and leaves none, so it is apart
from its caller's only where none is. A loop uses up what its body set, a break or a
continue. A body that set both ends the loop, and the continue goes on behind it.
-/

namespace ScriptLang

/-- The tree holds no `run` block. -/
def runless : NodeProperty where
  expr
    | .run .. => False
    | _ => True
  stmt _ := True

/-- The statement is a loop, with its body and with its condition or range. -/
inductive Stmt.IsLoop : Stmt → Stmt → Expr → Prop
  | whileLoop (head : Expr) (body : Stmt) (span : Span) :
    IsLoop (.whileLoop head body span) body head
  | doWhile (body : Stmt) (head : Expr) (span : Span) : IsLoop (.doWhile body head span) body head
  | forLoop (counter : String) (head : Expr) (body : Stmt) (span : Span) :
    IsLoop (.forLoop counter head body span) body head

namespace Signals

/-- A loop goes on with no signal set. -/
theorem afterBody_of_not_endsLoop {s : Signals} (h : s.endsLoop = false) :
    s.afterBody = clear := by
  obtain ⟨hb, hr⟩ := Bool.or_eq_false_iff.mp h
  rw [afterBody, hb, if_neg Bool.false_ne_true, hr]
  rfl

/-- Behind a body a break is used up, and a continue if there was no break. -/
theorem afterBody_eq (s : Signals) :
    s.afterBody = ⟨s.returning, false, s.breaking && s.continuing⟩ := by
  obtain ⟨_, breaking, _⟩ := s
  cases breaking <;> rfl

end Signals

namespace Eval

open Signals

variable {α : Type}

/-! ## What sets no signal -/

/-- Where no signal is set, none is set behind. -/
def StaysClear (s t : Evaluation) : Prop := s.signals = .clear → t.signals = .clear

def SameSignals (s t : Evaluation) : Prop := t.signals = s.signals

theorem reporting_sameSignals : Reporting SameSignals where
  refl _ := rfl
  trans h h' := h'.trans h
  report _ _ := rfl

theorem reporting_staysClear : Reporting StaysClear where
  refl _ := id
  trans h h' := h' ∘ h
  report _ _ := id

theorem SameSignals.staysClear {s t : Evaluation} (h : SameSignals s t) : StaysClear s t :=
  fun hs => h.trans hs

theorem sameSignals_bindParameters (ps : List Parameter) (vs : List Value)
    (position : Position) : Keeps SameSignals (bindParameters ps vs position) :=
  Keeps.bindParameters reporting_sameSignals.toComposes
    (fun v t => Keeps.coerce reporting_sameSignals v t position)
    (fun _ _ _ => Keeps.modified fun _ => rfl) ps vs

theorem sameSignals_store (name : String) (v : Value) (position : Position) :
    Keeps SameSignals (store name v position) := by
  intro s
  rcases after_store name v position s with ⟨e, _, h⟩ | ⟨fault, h⟩
  all_goals
    rw [h]
    rfl

theorem sameSignals_setCounter (counter : String) (n : Int64) :
    Keeps SameSignals (setCounter counter n) := by
  intro s
  rcases after_setCounter counter n s with ⟨e, _, h⟩ | h
  all_goals
    rw [h]
    rfl

/-! ## Calls -/

section

variable {f : Function} {name : String} {vs : List Value} {s : Evaluation}

/-- Behind the body of a call no signal is set, whatever way it ends. -/
theorem signals_callWith (hf : s.functions.find? name = some f)
    (hl : f.parameters.length = vs.length) (run : List Stmt → Eval Unit) (position : Position) :
    ((callWith run name vs position).after s).signals = .clear := by
  obtain ⟨t, ht⟩ := bindParameters_ok f.parameters vs position s.enterFrame
  have he : ((enter run f vs position).after s).signals = .clear := by
    rw [after_enter ht]
    rfl
  rw [callWith, after_get_bind, hf]
  dsimp only
  rw [if_pos hl]
  cases hx : enter run f vs position s with
  | ok v u =>
    rw [after_ok hx] at he
    rw [after_bind hx]
    exact (Keeps.resultOf reporting_sameSignals f.returns v position u).trans he
  | error e u =>
    rw [after_error hx] at he
    rw [after_error (bind_of_error _ hx)]
    exact he

/-- The body of a call starts with the signals that are pending at it. -/
theorem startBody_signals (hf : s.functions.find? name = some f)
    (hl : f.parameters.length = vs.length) (n : Nat) (position : Position) :
    ∃ u, Task.startBody n name vs position s = .ok (some ⟨n, n, .body f.body.body⟩) u ∧
      u.signals = s.signals := by
  obtain ⟨u, hu⟩ := bindParameters_ok f.parameters vs position s.enterFrame
  have hs := sameSignals_bindParameters f.parameters vs position s.enterFrame
  rw [after_ok hu] at hs
  refine ⟨u, ?_, hs⟩
  rw [Task.startBody, get_bind, hf]
  dsimp only
  rw [if_pos hl]
  exact (bind_of_ok (s := s) (t := s.enterFrame) _ rfl).trans (bind_of_ok _ hu)

end

theorem staysClear_call (n : Nat) (name : String) (vs : List Value) (position : Position) :
    Keeps StaysClear (call n name vs position) := by
  cases n with
  | zero => exact Keeps.outOfFuel reporting_staysClear.toComposes
  | succ n =>
    intro s hs
    cases hf : s.functions.find? name with
    | none =>
      rw [call, callWith, after_get_bind, hf]
      exact hs
    | some f =>
      by_cases hl : f.parameters.length = vs.length
      · exact signals_callWith hf hl _ position
      · rw [call, callWith, after_get_bind, hf]
        dsimp only
        rw [if_neg hl]
        exact hs

/-- A call is apart from its caller exactly where no signal is pending: its body starts
with the signals that are, and behind it, however it ends, none is. -/
theorem call_isolates_iff {f : Function} {name : String} {vs : List Value} {s : Evaluation}
    (hf : s.functions.find? name = some f) (hl : f.parameters.length = vs.length) (n : Nat)
    (position : Position) :
    ∃ u, Task.startBody n name vs position s = .ok (some ⟨n, n, .body f.body.body⟩) u ∧
      (u.signals = .clear ∧ ((call (n + 1) name vs position).after s).signals = s.signals ↔
        s.signals = .clear) := by
  obtain ⟨u, hu, hs⟩ := startBody_signals hf hl n position
  refine ⟨u, hu, ?_⟩
  rw [hs, call, signals_callWith hf hl]
  exact ⟨fun h => h.1, fun h => ⟨h, h.symm⟩⟩

/-- Where a break is pending, the body of a call starts with it, and it is lost behind. -/
theorem break_lost_in_call :
    let f : Function := ⟨"f", [], .unit, ⟨[], default⟩, default⟩
    let s : Evaluation := { Evaluation.new with
      functions := NameMap.empty.insert "f" f
      signals := ⟨false, true, false⟩ }
    s.functions.find? "f" = some f ∧ f.parameters.length = ([] : List Value).length ∧
      ¬ ∃ u, Task.startBody 0 "f" [] default s = .ok (some ⟨0, 0, .body f.body.body⟩) u ∧
        u.signals = .clear ∧ ((call 1 "f" [] default).after s).signals = s.signals := by
  intro f s
  refine ⟨rfl, rfl, ?_⟩
  rintro ⟨u, -, -, h⟩
  exact absurd h (by decide)

/-- A call of a function that returns, from where nothing is pending. -/
theorem call_isolates_iff_return :
    let f : Function := ⟨"f", [⟨"x", .int⟩], .int,
      ⟨[.return (some (.name "x" default)) default], default⟩, default⟩
    let s : Evaluation := { Evaluation.new with functions := NameMap.empty.insert "f" f }
    s.functions.find? "f" = some f ∧ f.parameters.length = [Value.integer 3].length ∧
      ∃ u, Task.startBody 0 "f" [.integer 3] default s =
          .ok (some ⟨0, 0, .body f.body.body⟩) u ∧
        (u.signals = .clear ∧
          ((call 1 "f" [.integer 3] default).after s).signals = s.signals ↔
          s.signals = .clear) := by
  intro f s
  have hf : s.functions.find? "f" = some f := rfl
  exact ⟨hf, rfl, call_isolates_iff hf rfl 0 default⟩

/-! ## Expressions without a `run` block -/

section

variable (n laps : Nat)

mutual

theorem staysClear_evaluate : ∀ e : Expr, runless.InExpr e →
    Keeps StaysClear (evaluate (call n) laps e)
  | .integer .., _ | .float .., _ | .boolean .., _ | .string .., _ =>
    Keeps.pure reporting_staysClear.toComposes _
  | .name name span, _ => Keeps.read reporting_staysClear name span.start
  | .group inner _, h => staysClear_evaluate inner h.2
  | .binary _ left right span, h =>
    have hc := reporting_staysClear.toComposes
    Keeps.bind hc (staysClear_evaluate left h.2.1) fun _ =>
      Keeps.bind hc (staysClear_evaluate right h.2.2) fun _ =>
        Keeps.settle reporting_staysClear span.start _
  | .unary (.step step) operand span, h =>
    have hc := reporting_staysClear.toComposes
    Keeps.bind hc (staysClear_evaluate operand h.2) fun old =>
      Keeps.stepNamed hc (fun name _ v =>
        (sameSignals_store name v span.start).weaken SameSignals.staysClear) step old
  | .unary .not operand span, h
  | .unary .negate operand span, h
  | .unary .plus operand span, h =>
    Keeps.bind reporting_staysClear.toComposes (staysClear_evaluate operand h.2) fun _ =>
      Keeps.settle reporting_staysClear span.start _
  | .call callee arguments span, h =>
    Keeps.bind reporting_staysClear.toComposes (staysClear_evaluateAll arguments h.2) fun vs =>
      staysClear_call n callee vs span.start
  | .range start stop _ _ _ _, h =>
    have hc := reporting_staysClear.toComposes
    Keeps.bind hc (staysClear_evaluate start h.2.1) fun a =>
      Keeps.bind hc (Keeps.toBound reporting_staysClear a start.span.start) fun _ =>
        Keeps.bind hc (staysClear_evaluate stop h.2.2.1) fun b =>
          Keeps.bind hc (Keeps.toBound reporting_staysClear b stop.span.start) fun _ =>
            Keeps.pure hc _
  | .run ⟨_, _⟩ _, h => h.1.elim

theorem staysClear_evaluateAll : ∀ es : List Expr, runless.InExprs es →
    Keeps StaysClear (evaluateAll (call n) laps es)
  | [], _ => Keeps.pure reporting_staysClear.toComposes _
  | e :: es, h =>
    have hc := reporting_staysClear.toComposes
    Keeps.bind hc (staysClear_evaluate e h.1) fun _ =>
      Keeps.bind hc (staysClear_evaluateAll es h.2) fun _ => Keeps.pure hc _

end

theorem staysClear_loopStep : ∀ e : Option Expr, runless.InOption e →
    Keeps StaysClear (loopStep (call n) laps e)
  | none, _ => Keeps.pure reporting_staysClear.toComposes _
  | some e, h =>
    have hc := reporting_staysClear.toComposes
    Keeps.bind hc (staysClear_evaluate n laps e h) fun v =>
      Keeps.bind hc (Keeps.toBound reporting_staysClear v e.span.start) fun m =>
        Keeps.bind hc (Keeps.checkStep hc m e.span.start) fun _ => Keeps.pure hc _

theorem staysClear_loopRange (position : Position) : ∀ e : Expr, runless.InExpr e →
    Keeps StaysClear (loopRange (call n) laps position e)
  | .group inner _, h => staysClear_loopRange position inner h.2
  | .range start stop _ _ step _, h =>
    have hc := reporting_staysClear.toComposes
    Keeps.bind hc (staysClear_evaluate n laps start h.2.1) fun a =>
      Keeps.bind hc (Keeps.toBound reporting_staysClear a start.span.start) fun _ =>
        Keeps.bind hc (staysClear_evaluate n laps stop h.2.2.1) fun b =>
          Keeps.bind hc (Keeps.toBound reporting_staysClear b stop.span.start) fun _ =>
            Keeps.bind hc (staysClear_loopStep n laps step h.2.2.2) fun _ => Keeps.pure hc _
  | .integer .., _ | .float .., _ | .boolean .., _ | .string .., _ | .name .., _
  | .binary .., _ | .unary .., _ | .call .., _ | .run .., _ =>
    Keeps.fail reporting_staysClear.toComposes _ position

end

/-! ## Loops -/

/-- Every run of the statement in the task that starts with no signal set and comes to
its end leaves a break or a continue, not both. -/
def Task.JumpsOnce (t : Task) (b : Stmt) (s : Evaluation) : Prop :=
  ∀ u v, Reaches t s ⟨t.nesting, t.laps, .statement b⟩ u → u.signals = .clear →
    execute (call t.nesting) t.laps b u = .ok () v →
      ¬ (v.signals.breaking ∧ v.signals.continuing)

/-- A task whose statement is the body of a loop leaves no break behind it, and no continue
if the body jumps once. -/
def Task.UsesUp (t : Task) (b : Stmt) (s s' : Evaluation) : Prop :=
  s'.signals.breaking = false ∧ (t.JumpsOnce b s → s'.signals.continuing = false)

/-- A lap leaves no break, no continue but one beside a break, and no signal if the loop
goes on. -/
theorem lap_ok {body : Eval Unit} {s t : Evaluation} {again : Bool}
    (h : lap body s = .ok again t) :
    ∃ v, body { s with signals := s.signals.clearLoop } = .ok () v ∧
      t.signals.breaking = false ∧
      t.signals.continuing = (v.signals.breaking && v.signals.continuing) ∧
      (again → t.signals = .clear) := by
  obtain ⟨_, v, hv, h⟩ := bind_ok.mp ((bind_of_ok _ rfl).symm.trans h)
  cases h
  refine ⟨v, hv, ?_, ?_, fun ha => Signals.afterBody_of_not_endsLoop (by simpa using ha)⟩
  · change v.signals.afterBody.breaking = false
    rw [Signals.afterBody_eq]
  · change v.signals.afterBody.continuing = _
    rw [Signals.afterBody_eq]

section

variable {n laps : Nat} {c : Expr} {b : Stmt} {s t : Evaluation}

theorem Task.JumpsOnce.behind {a a' : Activity} {s' : Evaluation} {x : Eval (Option Task)}
    (h : Task.JumpsOnce ⟨n, laps, a⟩ b s) (hx : x ∈ Task.starts ⟨n, laps, a⟩)
    (hs : x s = .ok (some ⟨n, laps, a'⟩) s') : Task.JumpsOnce ⟨n, laps, a'⟩ b s' :=
  fun u v hr => h u v (hr.behind hx hs)

theorem Task.UsesUp.behind {a a' : Activity} {s' : Evaluation} {x : Eval (Option Task)}
    (h : Task.UsesUp ⟨n, laps, a'⟩ b s' t) (hx : x ∈ Task.starts ⟨n, laps, a⟩)
    (hs : x s = .ok (some ⟨n, laps, a'⟩) s') : Task.UsesUp ⟨n, laps, a⟩ b s t :=
  ⟨h.1, fun hb => h.2 (hb.behind hx hs)⟩

/-- Where no signal is set there is none to use up. -/
theorem Task.UsesUp.of_clear (a : Activity) (ht : t.signals = .clear) :
    Task.UsesUp ⟨n, laps, a⟩ b s t := by
  rw [Task.UsesUp, ht]
  exact ⟨rfl, fun _ => rfl⟩

/-- A task that starts a lap uses up what the lap leaves. -/
theorem Task.UsesUp.of_lap {a : Activity} {s₁ : Evaluation} {again : Bool}
    {x : Eval (Option Task)} (h : lap (execute (call n) laps b) s₁ = .ok again t)
    (hs₁ : s₁.signals = .clear) (hx : x ∈ Task.starts ⟨n, laps, a⟩)
    (hs : x s = .ok (some ⟨n, laps, .statement b⟩)
      { s₁ with signals := s₁.signals.clearLoop }) : Task.UsesUp ⟨n, laps, a⟩ b s t := by
  obtain ⟨v, hv, hbreak, hcontinue, -⟩ := lap_ok h
  refine ⟨hbreak, fun hb => ?_⟩
  have hboth := hb.behind hx hs _ v .self (by rw [hs₁]; rfl) hv
  rw [hcontinue]
  simpa using hboth

/-- What a test without a `run` block leaves. -/
theorem clear_of_test {go : Bool} (hc : runless.InExpr c) (hs : s.signals = .clear)
    (h : (Value.isTruthy <$> evaluate (call n) laps c) s = .ok go t) :
    ∃ v, evaluate (call n) laps c s = .ok v t ∧ go = v.isTruthy ∧ t.signals = .clear := by
  obtain ⟨v, hv, rfl⟩ := map_ok.mp h
  have ht := staysClear_evaluate n laps c hc s hs
  rw [after_ok hv] at ht
  exact ⟨v, hv, rfl, ht⟩

theorem usesUp_whileLoop (hc : runless.InExpr c) {fuel : Nat} (hs : s.signals = .clear)
    (h : whileLoop (Value.isTruthy <$> evaluate (call n) laps c) (execute (call n) laps b) fuel s =
      .ok () t) : Task.UsesUp ⟨n, laps, .whileLaps c b fuel⟩ b s t := by
  induction fuel generalizing s with
  | zero => cases h
  | succ fuel ih =>
    obtain ⟨go, s₁, hgo, h⟩ := bind_ok.mp h
    obtain ⟨v, hv, rfl, hs₁⟩ := clear_of_test hc hs hgo
    split at h
    case isFalse =>
      cases h
      exact .of_clear _ hs₁
    case isTrue hgo =>
      obtain ⟨again, s₂, hlap, h⟩ := bind_ok.mp h
      split at h
      case isFalse =>
        cases h
        refine .of_lap hlap hs₁ (.tail _ (.head _)) ?_
        rw [bind_of_ok _ hv, if_pos hgo]
        rfl
      case isTrue hagain =>
        obtain ⟨-, -, -, -, hs₂⟩ := lap_ok hlap
        refine (ih (hs₂ hagain) h).behind (.tail _ (.tail _ (.head _))) ?_
        rw [bind_of_ok _ hv, if_pos hgo, bind_of_ok _ hlap, hagain]
        rfl

theorem usesUp_doWhile (hc : runless.InExpr c) {fuel : Nat} (hs : s.signals = .clear)
    (h : doWhile (execute (call n) laps b) (Value.isTruthy <$> evaluate (call n) laps c) fuel s =
      .ok () t) : Task.UsesUp ⟨n, laps, .doLaps b c fuel⟩ b s t := by
  induction fuel generalizing s with
  | zero => cases h
  | succ fuel ih =>
    obtain ⟨again, s₁, hlap, h⟩ := bind_ok.mp h
    split at h
    case isFalse =>
      cases h
      exact .of_lap hlap hs (.head _) rfl
    case isTrue hagain =>
      obtain ⟨-, -, -, -, hs₁⟩ := lap_ok hlap
      obtain ⟨go, s₂, hgo, h⟩ := bind_ok.mp h
      obtain ⟨v, hv, rfl, hs₂⟩ := clear_of_test hc (hs₁ hagain) hgo
      split at h
      case isFalse =>
        cases h
        exact .of_clear _ hs₂
      case isTrue hgo =>
        refine (ih hs₂ h).behind (.tail _ (.tail _ (.head _))) ?_
        rw [bind_of_ok _ hlap, if_pos hagain, bind_of_ok _ hv, hgo]
        rfl

theorem usesUp_forLoop {range : LoopRange} {counter : String} {count : Nat} {m : Int64}
    (hs : s.signals = .clear)
    (h : forLoop range counter (execute (call n) laps b) count m s = .ok () t) :
    Task.UsesUp ⟨n, laps, .forLaps range counter b count m⟩ b s t := by
  induction count generalizing s m with
  | zero =>
    cases h
    exact .of_clear _ hs
  | succ count ih =>
    obtain ⟨_, s₁, hset, h⟩ := bind_ok.mp h
    have hs₁ := sameSignals_setCounter counter m s
    rw [after_ok hset] at hs₁
    obtain ⟨again, s₂, hlap, h⟩ := bind_ok.mp h
    split at h
    case isFalse =>
      cases h
      exact .of_lap hlap (hs₁.trans hs) (.head _) (bind_of_ok _ hset)
    case isTrue hagain =>
      obtain ⟨-, -, -, -, hs₂⟩ := lap_ok hlap
      refine (ih (hs₂ hagain) h).behind (.tail _ (.head _)) ?_
      rw [bind_of_ok _ hset, bind_of_ok _ hlap, hagain]
      rfl

theorem inScope_ok {x : Eval α} {a : α} (h : inScope x s = .ok a t) :
    ∃ t', x s.enterScope = .ok a t' ∧ t = t'.leaveScope := by
  rw [inScope, ← Evaluation.enterScope] at h
  cases hx : x s.enterScope with
  | ok a' t' =>
    rw [hx] at h
    cases h
    exact ⟨t', rfl, rfl⟩
  | error e t' =>
    rw [hx] at h
    cases h

/-- The laps of a `for` run behind its counter was put in place, and end the loop. -/
theorem runFor_ok {range : LoopRange} {counter : String} {body : Eval Unit}
    (h : runFor range counter body s = .ok () t) :
    ∃ s' t', enterFor range counter s = .ok () s' ∧ s'.signals = s.signals ∧
      forLoop range counter body range.count range.start s' = .ok () t' ∧
      t.signals = t'.signals := by
  replace h : (if reusesCounter s counter then
      forLoop range counter body range.count range.start
    else inScope do
      modifyEnvironment fun e => e.declare counter (.integer range.start) .int true
      forLoop range counter body range.count range.start) s = .ok () t := h
  have he : enterFor range counter s = (if reusesCounter s counter then Pure.pure () else do
      enterScope
      modifyEnvironment fun e => e.declare counter (.integer range.start) .int true :
      Eval Unit) s := rfl
  rw [he]
  cases hr : reusesCounter s counter with
  | true =>
    rw [hr] at h
    exact ⟨s, t, rfl, rfl, h, rfl⟩
  | false =>
    rw [hr] at h
    obtain ⟨t', ht', rfl⟩ := inScope_ok h
    exact ⟨_, t', rfl, rfl, ht', rfl⟩

end

/-- A loop whose condition or range holds no `run` block, from where no signal is set,
leaves no break where it ends, and a continue only if some lap's body broke and continued. -/
theorem loop_uses_up {n laps : Nat} {loop body : Stmt} {head : Expr} {s t : Evaluation}
    (hloop : loop.IsLoop body head) (hhead : runless.InExpr head) (hs : s.signals = .clear)
    (h : execute (call n) laps loop s = .ok () t) :
    t.signals.breaking = false ∧
      (Task.JumpsOnce ⟨n, laps, .statement loop⟩ body s → t.signals.continuing = false) := by
  cases hloop with
  | whileLoop => exact (usesUp_whileLoop hhead hs h).behind (.head _) rfl
  | doWhile => exact (usesUp_doWhile hhead hs h).behind (.head _) rfl
  | forLoop =>
    obtain ⟨bounds, s₁, hr, h⟩ := bind_ok.mp h
    have hs₁ := staysClear_loopRange n laps head.span.start head hhead s hs
    rw [after_ok hr] at hs₁
    obtain ⟨s₂, t', he, hs₂, hf, ht⟩ := runFor_ok h
    rw [ht]
    refine (usesUp_forLoop (hs₂.trans hs₁) hf).behind (.tail _ (.head _)) ?_
    exact (bind_of_ok _ hr).trans (bind_of_ok _ he)

/-- A loop that a `run` block in an operand breaks out of. -/
theorem loop_uses_up_run :
    let body : Stmt := .print (some (.run ⟨[.break default], default⟩ default)) true default
    let head : Expr := .boolean true default
    let loop : Stmt := .whileLoop head body default
    loop.IsLoop body head ∧ runless.InExpr head ∧ Evaluation.new.signals = .clear ∧
      Task.JumpsOnce ⟨1, 2, .statement loop⟩ body .new ∧
      ∃ t, execute (call 1) 2 loop .new = .ok () t ∧
        t.signals.breaking = false ∧ t.signals.continuing = false := by
  intro body head loop
  have hloop : loop.IsLoop body head := .whileLoop head body default
  have hhead : runless.InExpr head := trivial
  have hbody : Task.JumpsOnce ⟨1, 2, .statement loop⟩ body .new := by
    rintro ⟨e, fs, signals, r, base, o, d⟩ v - hu hv
    subst hu
    cases hv
    exact fun h => Bool.false_ne_true h.2
  obtain ⟨t, ht⟩ : ∃ t, execute (call 1) 2 loop .new = .ok () t := ⟨_, rfl⟩
  obtain ⟨hbreak, hcontinue⟩ := loop_uses_up hloop hhead rfl ht
  exact ⟨hloop, hhead, rfl, hbody, t, ht, hbreak, hcontinue hbody⟩

/-- Two operands of a lap, one that breaks and one that continues. The loop ends on the
break, and the continue goes on behind it. -/
theorem continue_behind_loop :
    let jumps : Expr := .binary (.arithmetic .add)
      (.run ⟨[.break default, .expression (.integer 1 default)], default⟩ default)
      (.run ⟨[.continue default, .expression (.integer 2 default)], default⟩ default) default
    let loop : Stmt :=
      .whileLoop (.boolean true default) (.print (some jumps) true default) default
    runless.InExpr (.boolean true default) ∧ Evaluation.new.signals = .clear ∧
      ∃ t, execute (call 1) 2 loop .new = .ok () t ∧ t.signals.continuing = true :=
  ⟨trivial, rfl, _, rfl, rfl⟩

end Eval

end ScriptLang
