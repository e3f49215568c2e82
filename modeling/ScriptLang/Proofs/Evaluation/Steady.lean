import ScriptLang.Proofs.Evaluation.Soundness
import ScriptLang.Proofs.Evaluation.Typing
import ScriptLang.Proofs.Typing.Statement

/-!
# Statements keep the types of variables

A statement that keeps to the types leaves every variable that was there with the type
and mutability it had, and its value with the type it had. So what is known of variables
before a statement is known of them behind it.
-/

namespace ScriptLang

/-- Of a variable, all but the value, of which the type. -/
structure Binding.Steady (b b' : Binding) : Prop where
  type : b'.type = b.type
  mutable : b'.mutable = b.mutable
  value : b'.value.type = b.value.type

namespace Binding.Steady

variable {b b' : Binding}

theorem refl (b : Binding) : Steady b b := ⟨rfl, rfl, rfl⟩

theorem trans (a b c : Binding) (h : Steady a b) (h' : Steady b c) : Steady a c :=
  ⟨h'.type.trans h.type, h'.mutable.trans h.mutable, h'.value.trans h.value⟩

theorem typing (h : Steady b b') : b'.typing = b.typing := by
  rw [Binding.typing, Binding.typing, h.mutable, h.value]

theorem consistent (h : Steady b b') (hb : b.Consistent) : b'.Consistent := by
  rw [Consistent, h.type, h.value]
  exact hb

/-- A value of the same type, in a variable of which it is the type. -/
theorem of_type {v : Value} (ht : v.type = b.value.type) (hd : v.type = b.type.valueType) :
    Steady b { b with value := v.widen b.type } :=
  ⟨rfl, rfl, by rw [Value.widen_of_type hd]; exact ht⟩

end Binding.Steady

/-- The variables are those that are known, as they are known, and hold values that fit. -/
structure Environment.Matches (Γ : Typings) (e : Environment) : Prop where
  rooted : e.Rooted
  names : ∀ name,
    Option.Rel (fun b k => b.typing = k ∧ b.Consistent) (e.find? name) (Γ name)

namespace Environment

variable {Γ : Typings} {e e' : Environment} {name : String} {b : Binding} {k : Typing}

theorem Matches.find? (h : e.Matches Γ) (hb : e.find? name = some b) :
    Γ name = some b.typing ∧ b.Consistent := by
  have hn := h.names name
  rw [hb] at hn
  obtain ⟨k, hk, hbk, hc⟩ := exists_of_rel_some hn
  exact ⟨by rw [hk, hbk], hc⟩

theorem Matches.within (h : e.Matches Γ) (hw : e.Within Binding.Steady e') : e'.Matches Γ := by
  refine ⟨hw.below.rooted h.rooted, fun name => ?_⟩
  have hn := h.names name
  have hr := hw.find? name
  generalize e.find? name = b at hn hr
  generalize e'.find? name = b' at hr ⊢
  generalize Γ name = k at hn ⊢
  cases hr with
  | none => exact hn
  | some hs =>
    cases hn with
    | some hbk => exact .some ⟨hs.typing.trans hbk.1, hs.consistent hbk.2⟩

theorem Matches.knows (h : e.Matches Γ) : e.Knows Γ := by
  intro name k hk
  have hn := h.names name
  rw [hk] at hn
  generalize e.find? name = b at hn
  cases hn with
  | some hbk => exact ⟨_, rfl, hbk⟩

theorem Matches.push (h : e.Matches Γ) : e.push.Matches Γ := ⟨List.cons_ne_nil _ _, h.names⟩

theorem Matches.bind (h : e.Matches Γ) (hb : b.Consistent) :
    (e.bind name b).Matches (Γ.bind name b.typing) := by
  refine ⟨(below_bind Binding.Steady.refl e name b).rooted h.rooted, fun other => ?_⟩
  rw [find?_bind h.rooted, Typings.bind]
  by_cases ho : other = name
  · rw [if_pos ho, if_pos ho]
    exact .some ⟨rfl, hb⟩
  · rw [if_neg ho, if_neg ho]
    exact h.names other

end Environment

/-- If the variables of an environment are all there as they were, they stay so. -/
def Holding (e : Environment) (s t : Evaluation) : Prop :=
  e.Within Binding.Steady s.environment → e.Within Binding.Steady t.environment

namespace Eval

variable {Γ : Typings} {e₀ : Environment} {s t : Evaluation} {position : Position}

theorem composes_holding (e : Environment) : Composes (Holding e) :=
  ⟨fun _ => id, fun h h' hs => h' (h hs)⟩

theorem reporting_holding (e : Environment) : Reporting (Holding e) :=
  ⟨composes_holding e, fun _ _ => id⟩

theorem signalling_holding (e : Environment) : Signalling (Holding e) :=
  ⟨composes_holding e, fun _ _ _ => id⟩

/-- What is held in place of the environment itself stays as it is. -/
theorem within_of_holding {x : Eval α} (h : Keeps (Holding s.environment) x) :
    s.environment.Within Binding.Steady (x.after s).environment :=
  h s (Environment.Within.refl Binding.Steady.refl _)

/-! ## Stores -/

theorem holding_store {name : String} {v : Value} (position : Position)
    (hv : ∀ b, s.environment.find? name = some b → b.mutable = true →
      v.type = b.value.type ∧ v.type = b.type.valueType) :
    Holding e₀ s ((store name v position).after s) := by
  intro hs
  rcases after_store name v position s with ⟨e, hu, ht⟩ | ⟨fault, ht⟩
  · rw [ht]
    refine hs.trans Binding.Steady.trans
      (Environment.within_update Binding.Steady.refl hu fun b hb hm => ?_)
    obtain ⟨htype, hd⟩ := hv b hb hm
    exact .of_type htype hd
  · rw [ht]
    exact hs

theorem holding_step (h₀ : e₀.Matches Γ) (step : Step) (name : String)
    (place position : Position) :
    Keeps (Holding e₀) (do stepNamed step (some name) (← read name place) position) := by
  intro s
  refine step_of_store (reporting_holding e₀) step name place position fun t v he hnew ht => ?_
  have hm := h₀.within ht
  refine holding_store position (fun b hb _ => ?_) ht
  exact type_of_step (hm.find? hb).2 (hnew b (he ▸ hb))

theorem holding_assign (h₀ : e₀.Matches Γ) {target : String} {operator : AssignOperator}
    (ho : operator.isStep = true ∨ Γ.KeepsType target) (value : Option Value)
    (position : Position) : Keeps (Holding e₀) (assign target operator value position) := by
  intro s
  refine assign_of_store (reporting_holding e₀) target operator value position
    fun t b v he hb hv ht => ?_
  have hm := h₀.within ht
  refine holding_store position (fun c hc hcm => ?_) ht
  obtain ⟨hΓ, hcons⟩ := hm.find? hc
  rw [he, hb] at hc
  cases hc
  rcases hv with ⟨step, hnew⟩ | ⟨hset, hv⟩
  · exact type_of_step hcons hnew
  -- A variable that holds a range, whatever it is declared as, is not assigned to.
  · refine ⟨?_, hv⟩
    rcases hcons with hd | ⟨hrange, -⟩
    · exact hv.trans hd.symm
    · have hk : Γ.KeepsType target := ho.resolve_left (by rw [hset]; exact nofun)
      exact absurd (by rw [hΓ, Binding.typing, hrange, hcm]) hk

/-- A counter is an integer before and behind. -/
theorem holding_setCounter {counter : String} (h₀ : e₀.Matches Γ)
    (hc : Γ counter = some ⟨.integer, true⟩) (n : Int64) :
    Keeps (Holding e₀) (setCounter counter n) := by
  intro s hs
  rcases after_setCounter counter n s with ⟨e, hu, ht⟩ | ht
  · rw [ht]
    refine hs.trans Binding.Steady.trans
      (Environment.within_update Binding.Steady.refl hu fun b hb _ => ?_)
    obtain ⟨hΓ, hcons⟩ := (h₀.within hs).find? hb
    have hi : b.value.type = .integer := congrArg Typing.type (Option.some.inj (hΓ.symm.trans hc))
    refine .of_type hi.symm ?_
    rcases hcons with hd | ⟨hr, -⟩
    · exact hi.symm.trans hd
    · rw [hi] at hr
      cases hr
  · rw [ht]
    exact hs

/-! ## Expressions -/

variable (call : Invocation) (laps : Nat)

theorem holding_evaluate (h₀ : e₀.Matches Γ) {e : Expr} (he : e.Typed Γ) :
    Keeps (Holding e₀) (evaluate call laps e) := by
  have hc := composes_holding e₀
  have hr := reporting_holding e₀
  obtain ⟨t, ds, he⟩ := he
  induction he with
  | integer => exact Keeps.pure hc _
  | float => exact Keeps.pure hc _
  | boolean => exact Keeps.pure hc _
  | string => exact Keeps.pure hc _
  | @name n span => exact Keeps.read hr n span.start
  | group _ ih => exact ih
  | @binary _ _ _ span _ _ _ _ _ _ ihl ihr =>
    exact Keeps.bind hc ihl fun _ => Keeps.bind hc ihr fun _ => Keeps.settle hr span.start _
  | @unary o _ span _ _ hplain _ ih =>
    cases o with
    | step s => exact absurd rfl (hplain s)
    | _ => exact Keeps.bind hc ih fun _ => Keeps.settle hr span.start _
  | @step step operand span _ _ _ ih =>
    exact Keeps.steps hc ih fun name place _ => holding_step h₀ step name place span.start
  | @range a b _ _ _ _ _ _ _ _ _ _ iha ihb =>
    exact Keeps.bind hc iha fun v => Keeps.bind hc (Keeps.toBound hr v a.span.start) fun _ =>
      Keeps.bind hc ihb fun w => Keeps.bind hc (Keeps.toBound hr w b.span.start) fun _ =>
        Keeps.pure hc _

theorem holding_evaluateOption (h₀ : e₀.Matches Γ) {e : Option Expr} (he : ∀ d ∈ e, d.Typed Γ) :
    Keeps (Holding e₀) (evaluateOption call laps e) := by
  have hc := composes_holding e₀
  cases e with
  | none => exact Keeps.pure hc _
  | some e => exact Keeps.map hc (holding_evaluate call laps h₀ (he e rfl)) some

theorem holding_loopStep (h₀ : e₀.Matches Γ) {e : Option Expr} (he : ∀ d ∈ e, d.Typed Γ) :
    Keeps (Holding e₀) (loopStep call laps e) := by
  have hc := composes_holding e₀
  cases e with
  | none => exact Keeps.pure hc _
  | some e =>
    exact Keeps.bind hc (holding_evaluate call laps h₀ (he e rfl)) fun v =>
      Keeps.bind hc (Keeps.toBound (reporting_holding e₀) v e.span.start) fun n =>
        Keeps.bind hc (Keeps.checkStep hc n e.span.start) fun _ => Keeps.pure hc _

theorem holding_loopRange (h₀ : e₀.Matches Γ) (position : Position) :
    ∀ {e : Expr}, e.RangeTyped Γ → Keeps (Holding e₀) (loopRange call laps position e)
  | .group inner _, he => holding_loopRange h₀ position (e := inner) he
  | .range a b _ _ _ _, ⟨ha, hb, hstep⟩ =>
    have hc := composes_holding e₀
    have hr := reporting_holding e₀
    Keeps.bind hc (holding_evaluate call laps h₀ ha) fun v =>
      Keeps.bind hc (Keeps.toBound hr v a.span.start) fun _ =>
        Keeps.bind hc (holding_evaluate call laps h₀ hb) fun w =>
          Keeps.bind hc (Keeps.toBound hr w b.span.start) fun _ =>
            Keeps.bind hc (holding_loopStep call laps h₀ hstep) fun _ => Keeps.pure hc _

theorem typed_of_optionTypes {value : Option Expr} {t : Option ValueType}
    (h : OptionTypes Γ value t) : ∀ e ∈ value, e.Typed Γ := by
  intro e he
  cases he
  cases t with
  | none => exact h.elim
  | some t => exact ⟨t, h⟩

/-- The value of a declaration has the type that is told of it. -/
theorem evaluateOption_ok (h : s.environment.Knows Γ) {value : Option Expr}
    {type : Option ValueType} (hv : OptionTypes Γ value type) {v : Option Value}
    (ho : evaluateOption call laps value s = .ok v t) : v.map Value.type = type := by
  cases value with
  | none =>
    cases ho
    cases type with
    | none => rfl
    | some _ => exact hv.elim
  | some e =>
    obtain ⟨w, hw, rfl⟩ := map_ok.mp ho
    cases type with
    | none => exact hv.elim
    | some type =>
      obtain ⟨ds, hv⟩ := hv
      exact congrArg some (ensures_evaluate call laps hv h w t hw).1

/-- A declared variable is as it is told, and holds a value that fits. -/
theorem declare_ok {name : String} {constant : Bool} {type : Option DeclaredType}
    {value : Option Value} (h : declare name constant type value position s = .ok () t) :
    ∃ b : Binding, t.environment = s.environment.bind name b ∧
      b.typing = declaredTyping constant type (value.map Value.type) ∧ b.Consistent := by
  have htyped {w : Value} {chosen : DeclaredType} (hw : w.type = chosen.valueType) :
      (⟨w.widen chosen, chosen, !constant⟩ : Binding).typing = ⟨chosen.valueType, !constant⟩ ∧
        (⟨w.widen chosen, chosen, !constant⟩ : Binding).Consistent := by
    rw [Value.widen_of_type hw]
    exact ⟨by rw [Binding.typing, hw], .inl hw⟩
  have hcoerced {v : Value} {chosen : DeclaredType} (h : (do
        let w ← coerce v chosen position
        modifyEnvironment fun e => e.declare name w chosen !constant : Eval Unit) s = .ok () t) :
      ∃ b : Binding, t.environment = s.environment.bind name b ∧
        b.typing = ⟨chosen.valueType, !constant⟩ ∧ b.Consistent := by
    obtain ⟨w, u, hw, h⟩ := bind_ok.mp h
    cases h
    obtain ⟨hw, hu⟩ := coerce_ok hw
    exact ⟨_, by rw [← hu]; rfl, htyped hw⟩
  cases value with
  | none =>
    cases h
    cases type with
    | none => exact ⟨_, rfl, htyped rfl⟩
    | some chosen => exact ⟨_, rfl, htyped (Value.type_zero chosen)⟩
  | some v =>
    cases type with
    | some chosen => cases v <;> exact hcoerced h
    | none =>
      cases v with
      | range a b =>
        cases h
        exact ⟨_, rfl, rfl, .inr ⟨rfl, rfl⟩⟩
      | _ => exact hcoerced h

/-! ## Statements -/

theorem composes_below : Composes fun s t : Evaluation =>
    s.environment.Below Binding.Steady t.environment :=
  ⟨fun _ => Environment.Below.refl Binding.Steady.refl _,
    fun h h' => h.trans Binding.Steady.trans h'⟩

theorem below_declare (name : String) (constant : Bool) (type : Option DeclaredType)
    (value : Option Value) (position : Position) :
    Keeps (fun s t => s.environment.Below Binding.Steady t.environment)
      (declare name constant type value position) := by
  have hr : Reporting fun s t : Evaluation =>
      s.environment.Below Binding.Steady t.environment :=
    ⟨composes_below, fun s _ => Environment.Below.refl Binding.Steady.refl s.environment⟩
  exact Keeps.declare composes_below (fun v t => Keeps.coerce hr v t position)
    (fun v t s => Environment.below_declare Binding.Steady.refl s.environment name v t _)
    type value

/-- Behind a declaration, one more variable is known. -/
theorem matches_declare {name : String} {constant : Bool} {type : Option DeclaredType}
    {value : Option Expr} {span : Span} {t : Option ValueType} {u : Evaluation}
    (hs : s.environment.Matches Γ) (hv : OptionTypes Γ value t)
    (h : execute call laps (.declare name constant type value span) s = .ok () u) :
    u.environment.Matches (Γ.bind name (declaredTyping constant type t)) := by
  obtain ⟨v, s', hv', h⟩ := bind_ok.mp h
  have hw := within_of_holding (holding_evaluateOption call laps hs (typed_of_optionTypes hv))
  rw [after_ok hv'] at hw
  obtain ⟨b, hu, hb, hc⟩ := declare_ok h
  rw [evaluateOption_ok call laps hs.knows hv hv'] at hb
  rw [hu, ← hb]
  exact (hs.within hw).bind hc

/-- A loop that may count in a variable leaves it an integer; one that may not counts in
a variable of its own. -/
theorem holding_runFor (h₀ : e₀.Matches Γ) {counter : String} {body : Eval Unit}
    (hk : Γ.KeepsType counter)
    (hb : ∀ e, e.Matches (Γ.bind counter ⟨.integer, true⟩) → Keeps (Holding e) body)
    (range : LoopRange) : Keeps (Holding e₀) (runFor range counter body) := by
  intro s hs
  have hm := h₀.within hs
  change e₀.Within Binding.Steady (after (if reusesCounter s counter then
    forLoop range counter body range.count range.start else inScope _) s).environment
  split
  · next hr =>
    obtain ⟨b, hf, hbm, hbt⟩ := Evaluation.counts_of_reusesCounter hr
    obtain ⟨hΓ, hcons⟩ := hm.find? hf
    rw [Binding.typing, hbm] at hΓ
    have hi : Γ counter = some ⟨.integer, true⟩ := by
      rcases hcons with hd | ⟨hrange, -⟩
      · rw [hΓ, hd, hbt]
        rfl
      · rw [hrange] at hΓ
        exact absurd hΓ hk
    have hbody : Keeps (Holding e₀) body := hb e₀ (by rwa [Typings.bind_of_eq hi])
    exact Keeps.forLoop (signalling_holding e₀) hbody (holding_setCounter h₀ hi) range
      range.count range.start s hs
  · rw [after_inScope]
    let e₁ := s.environment.push.declare counter (.integer range.start) .int true
    have hfits : (⟨.integer range.start, .int, true⟩ : Binding).Consistent := .inl rfl
    have h₁ : e₁.Matches (Γ.bind counter ⟨.integer, true⟩) := hm.push.bind hfits
    have hset := holding_setCounter h₁ (if_pos rfl)
    have hloop := Keeps.forLoop (signalling_holding e₁) (hb e₁ h₁) hset range range.count
      range.start { s.enterScope with environment := e₁ }
      (Environment.Within.refl Binding.Steady.refl e₁)
    have hd := Environment.below_declare Binding.Steady.refl s.environment.push counter
      (.integer range.start) .int true
    exact hs.trans Binding.Steady.trans
      (Environment.Below.within_pop hm.rooted (hd.trans Binding.Steady.trans hloop.below))

mutual

/-- A statement that fits leaves every variable steady, however it ends. -/
theorem holding_execute : ∀ (b : Stmt) {Γ : Typings} {e₀ : Environment}, e₀.Matches Γ →
    b.Fits Γ → Keeps (Holding e₀) (execute call laps b)
  | .expression e, Γ, e₀, h₀, h =>
    Keeps.bind (composes_holding e₀) (holding_evaluate call laps h₀ h) fun _ =>
      Keeps.pure (composes_holding e₀) _
  | .declare .., _, _, _, h => h.elim
  | .assign target operator v span, Γ, e₀, h₀, ⟨_, ho, hv⟩ =>
    Keeps.bind (composes_holding e₀) (holding_evaluateOption call laps h₀ hv) fun v =>
      holding_assign h₀ ho v span.start
  | .print v _ _, Γ, e₀, h₀, h =>
    Keeps.bind (composes_holding e₀) (holding_evaluateOption call laps h₀ h) fun _ =>
      Keeps.modified fun _ => id
  | .block ⟨body, _⟩, Γ, e₀, h₀, h => by
    intro s hs
    rw [execute, after_inScope]
    have hm := h₀.within hs
    have hbelow := below_executeAll body (s := s.enterScope) hm.push h
    exact hs.trans Binding.Steady.trans (Environment.Below.within_pop hm.rooted hbelow)
  | .branch c a b _, Γ, e₀, h₀, ⟨hc, ha, hb⟩ => by
    refine Keeps.bind (composes_holding e₀) (holding_evaluate call laps h₀ hc) fun v => ?_
    split
    · exact holding_execute a h₀ ha
    · exact holding_executeOption b h₀ hb
  | .whileLoop c b _, Γ, e₀, h₀, ⟨hc, hb⟩ =>
    Keeps.whileLoop (signalling_holding e₀) (holding_execute b h₀ hb)
      (Keeps.map (composes_holding e₀) (holding_evaluate call laps h₀ hc) _) laps
  | .doWhile b c _, Γ, e₀, h₀, ⟨hb, hc⟩ =>
    Keeps.doWhile (signalling_holding e₀) (holding_execute b h₀ hb)
      (Keeps.map (composes_holding e₀) (holding_evaluate call laps h₀ hc) _) laps
  | .forLoop counter range b _, Γ, e₀, h₀, ⟨hk, hr, hb⟩ =>
    Keeps.bind (composes_holding e₀) (holding_loopRange call laps h₀ range.span.start hr)
      fun bounds => holding_runFor h₀ hk (fun _ h => holding_execute b h hb) bounds
  | .function _, _, e₀, _, _ => Keeps.pure (composes_holding e₀) _
  | .return v _, Γ, e₀, h₀, h =>
    Keeps.bind (composes_holding e₀) (holding_evaluateOption call laps h₀ h) fun _ =>
      Keeps.modified fun _ => id
  | .break _, _, e₀, _, _ => Keeps.modifySignals (signalling_holding e₀) _
  | .continue _, _, e₀, _, _ => Keeps.modifySignals (signalling_holding e₀) _

theorem holding_executeOption : ∀ (b : Option Stmt) {Γ : Typings} {e₀ : Environment},
    e₀.Matches Γ → Stmt.ElseFits Γ b → Keeps (Holding e₀) (executeOption call laps b)
  | none, _, e₀, _, _ => Keeps.pure (composes_holding e₀) _
  | some b, _, _, h₀, h => holding_execute b h₀ h

/-- Statements in turn may declare, and leave the variables below steady. -/
theorem below_executeAll : ∀ (body : List Stmt) {Γ : Typings} {s : Evaluation},
    s.environment.Matches Γ → Stmt.FitAll Γ body →
    s.environment.Below Binding.Steady ((executeAll call laps body).after s).environment
  | [], _, s, _, _ => Environment.Below.refl Binding.Steady.refl s.environment
  | b :: rest, Γ, s, hs, h => by
    -- What is known behind the first statement, and how it leaves the environment.
    obtain ⟨hfirst, hnext⟩ : s.environment.Below Binding.Steady
          ((execute call laps b).after s).environment ∧
        ∀ t, execute call laps b s = .ok () t →
          ∃ Δ, t.environment.Matches Δ ∧ Stmt.FitAll Δ rest := by
      rcases Stmt.fitAll_cons h with
        ⟨name, constant, type, value, span, t, rfl, hv, hrest⟩ | ⟨hb, hrest⟩
      · have hw := within_of_holding
          (holding_evaluateOption call laps hs (typed_of_optionTypes hv))
        exact ⟨composes_below.bind hw.below fun v t _ =>
            below_declare name constant type v span.start t,
          fun t ht => ⟨_, matches_declare call laps hs hv ht, hrest⟩⟩
      · have hw := within_of_holding (holding_execute b hs hb)
        refine ⟨hw.below, fun t ht => ⟨Γ, hs.within ?_, hrest⟩⟩
        rwa [after_ok ht] at hw
    refine composes_below.bind hfirst fun _ t ht => ?_
    obtain ⟨Δ, hΔ, hrest⟩ := hnext t ht
    change t.environment.Below Binding.Steady (after (if t.signals.any = true then pure () else
      executeAll call laps rest) t).environment
    split
    · exact composes_below.refl t
    · exact below_executeAll rest hΔ hrest

end

end Eval

end ScriptLang
