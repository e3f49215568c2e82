import ScriptLang.Proofs.Evaluation.Contract
import ScriptLang.Proofs.Scope

/-!
# What encloses a construct

Evaluation writes to variables by name, through all scopes, and yet a scope is only
ever extended by a statement that stands in it. Whatever way a construct ends, the
scopes around it bind the same names with the same types, and hold each `val` as it was.
-/

namespace ScriptLang

/-- Of a variable, all but the value of a `var`. -/
structure Binding.Kept (b b' : Binding) : Prop where
  type : b'.type = b.type
  mutable : b'.mutable = b.mutable
  value : b.mutable = false → b'.value = b.value

namespace Binding.Kept

theorem refl (b : Binding) : Kept b b := ⟨rfl, rfl, fun _ => rfl⟩

theorem trans (a b c : Binding) (h : Kept a b) (h' : Kept b c) : Kept a c where
  type := h'.type.trans h.type
  mutable := h'.mutable.trans h.mutable
  value := fun hm => (h'.value (h.mutable.trans hm)).trans (h.value hm)

end Binding.Kept

/-- From an environment with its outermost scope, expressions keep what is in every
scope, and statements what is in those below the innermost. -/
def enclosure : Contract where
  onExpr s t := s.environment.Rooted → s.environment.Within Binding.Kept t.environment
  onStmt s t := s.environment.Rooted → s.environment.Below Binding.Kept t.environment

open Environment in
theorem lawful_enclosure : enclosure.Lawful := by
  have hrefl (e : Environment) : e.Within Binding.Kept e := Within.refl Binding.Kept.refl e
  have hbelow {s t : Evaluation} (h : enclosure.onExpr s t) : enclosure.onStmt s t :=
    fun hs => (h hs).below
  constructor
  · refine ⟨fun s _ => hrefl s.environment, fun {s t u} h h' hs => ?_⟩
    have hst := h hs
    exact hst.trans Binding.Kept.trans (h' (hst.below.rooted hs))
  · refine ⟨fun s _ => (hrefl s.environment).below, fun {s t u} h h' hs => ?_⟩
    have hst := h hs
    exact hst.trans Binding.Kept.trans (h' (hst.rooted hs))
  · exact hbelow
  · intro s fault _
    exact hrefl s.environment
  · intro s text _
    exact (hrefl s.environment).below
  · intro s signals returned _
    exact (hrefl s.environment).below
  · intro s name value e hu _
    refine within_update Binding.Kept.refl hu fun b _ hm => ⟨rfl, rfl, fun hf => ?_⟩
    rw [hm] at hf
    cases hf
  · intro s name value type mutable _
    exact below_declare Binding.Kept.refl s.environment name value type mutable
  · intro s t h hs
    exact Below.within_pop hs (h (List.cons_ne_nil _ _))
  · intro s t h hs
    exact Below.within_pop hs (h (List.cons_ne_nil _ _))

/-! ## Without declarations -/

mutual

/-- Whether the statement declares the name in the scope it stands in. -/
def Stmt.declares (name : String) : Stmt → Bool
  | .declare n _ _ _ _ => n = name
  | .branch _ a b _ => a.declares name || Stmt.elseDeclares name b
  | .whileLoop _ b _ => b.declares name
  | .doWhile b _ _ => b.declares name
  | .forLoop _ _ b _ => b.declares name
  | _ => false

def Stmt.elseDeclares (name : String) : Option Stmt → Bool
  | none => false
  | some b => b.declares name

end

/-- The variable a name means stays, with its type and, if it is a `val`, its value. -/
def Evaluation.Retains (name : String) (s t : Evaluation) : Prop :=
  s.environment.Rooted → t.environment.Rooted ∧
    Option.Rel Binding.Kept (s.environment.find? name) (t.environment.find? name)

namespace Eval

variable {name : String} {s t : Evaluation}

theorem signalling_retains (name : String) : Signalling (Evaluation.Retains name) where
  refl s hs := ⟨hs, Environment.rel_refl Binding.Kept.refl _⟩
  trans h h' hs := by
    obtain ⟨ht, hst⟩ := h hs
    obtain ⟨hu, htu⟩ := h' ht
    exact ⟨hu, Environment.rel_trans Binding.Kept.trans hst htu⟩
  signal s _ _ hs := ⟨hs, Environment.rel_refl Binding.Kept.refl _⟩

/-- What is kept in every scope is kept under every name. -/
theorem retains_of_enclosure (h : enclosure.onExpr s t) : s.Retains name t := fun hs =>
  ⟨(h hs).below.rooted hs, (h hs).find? name⟩

variable (nesting laps : Nat)

theorem retains_evaluate (e : Expr) :
    Keeps (Evaluation.Retains name) (evaluate (call nesting) laps e) :=
  (keeps_evaluate lawful_enclosure (keeps_call lawful_enclosure nesting) laps e).weaken
    retains_of_enclosure

theorem retains_evaluateOption (e : Option Expr) :
    Keeps (Evaluation.Retains name) (evaluateOption (call nesting) laps e) := by
  have hr := (signalling_retains name).toComposes
  cases e with
  | none => exact Keeps.pure hr _
  | some e => exact Keeps.map hr (retains_evaluate nesting laps e) some

theorem retains_declare {other : String} (ho : name ≠ other) (constant : Bool)
    (type : Option DeclaredType) (v : Option Value) (position : Position) :
    Keeps (Evaluation.Retains name) (declare other constant type v position) := by
  refine Keeps.declare (signalling_retains name).toComposes
    (fun v t => (Keeps.coerce (reporting_onExpr lawful_enclosure) v t position).weaken
      retains_of_enclosure) (fun v t => Keeps.modified fun s hs => ?_) type v
  have hb : s.environment.Below Binding.Kept (s.environment.declare other v t !constant) :=
    Environment.below_declare Binding.Kept.refl s.environment other v t _
  refine ⟨hb.rooted hs, ?_⟩
  change Option.Rel _ _ ((s.environment.bind other _).find? name)
  rw [Environment.find?_bind hs, if_neg ho]
  exact Environment.rel_refl Binding.Kept.refl _

theorem retains_runFor {body : Eval Unit} (hb : Keeps enclosure.onStmt body)
    (h : Keeps (Evaluation.Retains name) body) (range : LoopRange) (counter : String) :
    Keeps (Evaluation.Retains name) (runFor range counter body) := by
  have hr := signalling_retains name
  have hset (n : Int64) : Keeps (Evaluation.Retains name) (setCounter counter n) :=
    (keeps_setCounter lawful_enclosure counter n).weaken retains_of_enclosure
  refine Keeps.bind hr.toComposes (Keeps.get hr.toComposes) fun s => ?_
  split
  · exact Keeps.forLoop hr h hset range _ _
  -- In a scope of its own, the body keeps what is outside whatever it declares.
  · have hloop := Keeps.forLoop (signalling_onStmt lawful_enclosure) hb
      (fun n => (keeps_setCounter lawful_enclosure counter n).weaken lawful_enclosure.weaken)
      range range.count range.start
    refine (keeps_inScope lawful_enclosure (Keeps.bind lawful_enclosure.stmt
      (Keeps.modified fun s => ?_) fun _ => hloop)).weaken retains_of_enclosure
    exact lawful_enclosure.declare s counter _ _ _

mutual

/-- A statement that does not declare a name retains its variable. -/
theorem retains_execute : ∀ b : Stmt, b.declares name = false →
    Keeps (Evaluation.Retains name) (execute (call nesting) laps b)
  | .expression e, _ =>
    have hr := (signalling_retains name).toComposes
    Keeps.bind hr (retains_evaluate nesting laps e) fun _ => Keeps.pure hr _
  | .declare n constant type v span, h => by
    have hn : name ≠ n := fun hn => by simp [Stmt.declares, hn] at h
    exact Keeps.bind (signalling_retains name).toComposes
      (retains_evaluateOption nesting laps v) fun v => retains_declare hn constant type v span.start
  | .assign target operator v span, _ =>
    Keeps.bind (signalling_retains name).toComposes (retains_evaluateOption nesting laps v)
      fun v => (keeps_assign lawful_enclosure target operator v span.start).weaken
        retains_of_enclosure
  | .print v _ _, _ =>
    Keeps.bind (signalling_retains name).toComposes (retains_evaluateOption nesting laps v)
      fun _ => Keeps.modified fun s hs => ⟨hs, Environment.rel_refl Binding.Kept.refl _⟩
  | .block ⟨body, _⟩, _ =>
    (keeps_inScope lawful_enclosure (keeps_executeAll lawful_enclosure
      (keeps_call lawful_enclosure nesting) laps body)).weaken retains_of_enclosure
  | .branch c a b _, h => by
    obtain ⟨ha, hb⟩ := Bool.or_eq_false_iff.mp h
    refine Keeps.bind (signalling_retains name).toComposes (retains_evaluate nesting laps c)
      fun v => ?_
    split
    · exact retains_execute a ha
    · exact retains_executeOption b hb
  | .whileLoop c b _, h =>
    have hr := signalling_retains name
    Keeps.whileLoop hr (retains_execute b h)
      (Keeps.map hr.toComposes (retains_evaluate nesting laps c) _) laps
  | .doWhile b c _, h =>
    have hr := signalling_retains name
    Keeps.doWhile hr (retains_execute b h)
      (Keeps.map hr.toComposes (retains_evaluate nesting laps c) _) laps
  | .forLoop counter range b _, h =>
    have hc := keeps_call lawful_enclosure nesting
    Keeps.bind (signalling_retains name).toComposes
      ((keeps_loopRange lawful_enclosure hc laps range.span.start range).weaken
        retains_of_enclosure)
      fun bounds => retains_runFor (keeps_execute lawful_enclosure hc laps b)
        (retains_execute b h) bounds counter
  | .function _, _ => Keeps.pure (signalling_retains name).toComposes _
  | .return v _, _ =>
    Keeps.bind (signalling_retains name).toComposes (retains_evaluateOption nesting laps v)
      fun _ => Keeps.modified fun s hs => ⟨hs, Environment.rel_refl Binding.Kept.refl _⟩
  | .break _, _ => Keeps.modifySignals (signalling_retains name) _
  | .continue _, _ => Keeps.modifySignals (signalling_retains name) _

theorem retains_executeOption : ∀ b : Option Stmt, Stmt.elseDeclares name b = false →
    Keeps (Evaluation.Retains name) (executeOption (call nesting) laps b)
  | none, _ => Keeps.pure (signalling_retains name).toComposes _
  | some b, h => retains_execute b h

end

end Eval

/-- An expression, a block or a call leaves every scope the same names with the same
types and mutability, and each `val` its value; a statement so leaves every scope below
the innermost. This holds on every way to end. -/
theorem Evaluation.enclosing_kept {s : Evaluation} (h : s.environment.Rooted)
    (nesting laps : Nat) :
    (∀ e, s.environment.Within Binding.Kept
      ((Eval.evaluate (Eval.call nesting) laps e).after s).environment) ∧
    (∀ b, s.environment.Within Binding.Kept
      ((Eval.execute (Eval.call nesting) laps (.block b)).after s).environment) ∧
    (∀ name vs position, s.environment.Within Binding.Kept
      ((Eval.call nesting name vs position).after s).environment) ∧
    ∀ b, s.environment.Below Binding.Kept
      ((Eval.execute (Eval.call nesting) laps b).after s).environment := by
  have hc := Eval.keeps_call lawful_enclosure nesting
  have hbody := Eval.keeps_executeAll lawful_enclosure hc laps
  refine ⟨fun e => ?_, fun ⟨body, _⟩ => ?_, fun name vs position => ?_, fun b => ?_⟩
  · exact Eval.keeps_evaluate lawful_enclosure hc laps e s h
  · exact Eval.keeps_inScope lawful_enclosure (hbody body) s h
  · exact hc name vs position s h
  · exact Eval.keeps_execute lawful_enclosure hc laps b s h

/-- A block that assigns to a global `val`, and declares one of that name. -/
theorem Evaluation.enclosing_kept_val :
    let s : Evaluation := { Evaluation.new with
      environment := Environment.new.declare "x" (.integer 1) .int false }
    s.environment.Rooted ∧ s.environment.Within Binding.Kept
      ((Eval.execute (Eval.call 1) 1 (.block ⟨[
        .assign "x" .set (some (.integer 2 default)) default,
        .declare "x" false none (some (.boolean true default)) default], default⟩)).after
          s).environment := by
  intro s
  have h : s.environment.Rooted := List.cons_ne_nil _ _
  exact ⟨h, (Evaluation.enclosing_kept h 1 1).2.1 _⟩

end ScriptLang
