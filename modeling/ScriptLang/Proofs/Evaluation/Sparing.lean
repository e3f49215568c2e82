import ScriptLang.Proofs.Evaluation.Privacy

/-!
# Calls leave the variables of their callers alone

What is closed stores to its own variables and to globals. So evaluation spares the
scopes of callers, and a call changes no scope at all but the outermost, however it ends.
-/

namespace ScriptLang

open Evaluation

/-- Where known names are those of the running call, the scopes of its callers are spared. -/
def Obeys (globals known : Set String) (s t : Evaluation) : Prop :=
  s.Private globals known → s.Spares globals t

/-- Where known names are those of the running call, only the outermost scope is changed. -/
def Detaches (globals known : Set String) (s t : Evaluation) : Prop :=
  s.Private globals known → s.Spares globals t ∧
    ∀ i, 0 < i → ∀ name, t.environment.bindingAt i name = s.environment.bindingAt i name

namespace Eval

variable {α : Type} {globals known : Set String} {s : Evaluation} {name : String}

theorem composes_obeys : Composes (Obeys globals known) where
  refl s _ := .refl s
  trans h h' hs := (h hs).trans (h' (hs.later (h hs)))

theorem reporting_obeys : Reporting (Obeys globals known) :=
  ⟨composes_obeys, fun _ _ _ => .of_eq rfl rfl rfl⟩

theorem signalling_obeys : Signalling (Obeys globals known) :=
  ⟨composes_obeys, fun _ _ _ _ => .of_eq rfl rfl rfl⟩

theorem reporting_detaches : Reporting (Detaches globals known) where
  refl s _ := ⟨.refl s, fun _ _ _ => rfl⟩
  trans h h' hs := by
    obtain ⟨hst, h⟩ := h hs
    obtain ⟨htu, h'⟩ := h' (hs.later hst)
    exact ⟨hst.trans htu, fun i hi name => (h' i hi name).trans (h i hi name)⟩
  report _ _ _ := ⟨.of_eq rfl rfl rfl, fun _ _ _ => rfl⟩

theorem obeys_of_detaches {t : Evaluation} (h : Detaches globals known s t) :
    Obeys globals known s t := fun hs => (h hs).1

/-! ## Stores -/

theorem obeys_store (hn : name ∈ known) (v : Value) (position : Position) :
    Keeps (Obeys globals known) (store name v position) := by
  intro s hs
  rcases after_store name v position s with ⟨e, hu, ht⟩ | ⟨fault, ht⟩ <;> rw [ht]
  · exact Private.spares_update (hs.names name hn) hu
  · exact .of_eq rfl rfl rfl

theorem obeys_setCounter (hn : name ∈ known) (n : Int64) :
    Keeps (Obeys globals known) (setCounter name n) := by
  intro s hs
  rcases after_setCounter name n s with ⟨e, hu, ht⟩ | ht <;> rw [ht]
  · exact Private.spares_update (hs.names name hn) hu
  · exact .refl s

/-! ## Scopes -/

theorem obeys_inScope {x : Eval α} (hx : Keeps (Obeys globals known) x) :
    Keeps (Obeys globals known) (inScope x) := by
  intro s hs
  rw [after_inScope]
  exact hs.spares_leaveScope (hx _ hs.enterScope)

/-- A declared variable is known. -/
theorem private_declare {constant : Bool} {type : Option DeclaredType} {value : Option Value}
    {position : Position} (hs : s.Private globals known) (hn : name ∉ globals) :
    ∃ t, declare name constant type value position s = .ok () t ∧ s.Spares globals t ∧
      t.Private globals (insert name known) := by
  obtain ⟨v, type, faults, h⟩ := declare_eq name constant type value position s
  exact ⟨_, h, (hs.spares_declare v type _ hn).trans (.of_eq rfl rfl rfl),
    (hs.declare v type _ hn).later (.of_eq rfl rfl rfl)⟩

/-- What a statement declares is known behind it. -/
theorem private_of_execute {call : Invocation} {laps : Nat} {b : Stmt} {t : Evaluation}
    (hb : Keeps (Obeys globals known) (execute call laps b)) (hs : s.Private globals known)
    (h : execute call laps b s = .ok () t) : t.Private globals (b.bind known) := by
  have ht := hs.later (hb s hs)
  rw [after_ok h] at ht
  cases b with
  | declare name constant type value span =>
    obtain ⟨v, u, -, h⟩ := bind_ok.mp h
    obtain ⟨w, chosen, faults, hd⟩ := declare_eq name constant type v span.start u
    cases hd.symm.trans h
    refine ht.learn (ht.own_of_innermost ?_)
    have hpos : 0 < (u.environment.bind name _).depth := ht.depth_pos
    rw [Environment.depth_bind] at hpos
    exact u.environment.bindingAt_innermost hpos name _
  | _ => exact ht

/-- Statements behind a statement know what it declares. -/
theorem obeys_behind {call : Invocation} {laps : Nat} {b : Stmt} {f : Unit → Eval α}
    (hb : Keeps (Obeys globals known) (execute call laps b))
    (hf : Keeps (Obeys globals (b.bind known)) (f ())) :
    Keeps (Obeys globals known) (execute call laps b >>= f) := by
  intro s hs
  cases h : execute call laps b s with
  | ok a t =>
    have hst := hb s hs
    rw [after_ok h] at hst
    rw [after_bind h]
    exact hst.trans (hf t (private_of_execute hb hs h))
  | error e t =>
    have hst := hb s hs
    rw [after_error h] at hst
    rwa [after_error (bind_of_error f h)]

/-- Bound parameters are known. -/
theorem private_bindParameters (position : Position) : ∀ {ps : List Parameter} {vs : List Value}
    {known : Set String} {s : Evaluation}, ps.length = vs.length → s.Private globals known →
    (∀ p ∈ ps, p.name ∉ globals) → ∃ t, bindParameters ps vs position s = .ok () t ∧
      s.Spares globals t ∧ t.Private globals (Parameter.bindAll known ps)
  | [], [], _, s, _, hs, _ => ⟨s, rfl, .refl s, hs⟩
  | p :: ps, v :: vs, _, s, hl, hs, hps => by
    obtain ⟨hp, hps⟩ := List.forall_mem_cons.mp hps
    obtain ⟨w, faults, hw⟩ := coerce_eq v p.type position s
    have hreport : s.Spares globals { s with diagnostics := s.diagnostics ++ faults } :=
      .of_eq rfl rfl rfl
    have ht := hs.later hreport
    obtain ⟨u, hu, hspares, hprivate⟩ := private_bindParameters position (Nat.succ.inj hl)
      (ht.declare w p.type true hp) hps
    refine ⟨u, ?_, ?_, hprivate⟩
    · rw [bindParameters, bind_of_ok _ hw]
      exact hu
    · exact hreport.trans ((ht.spares_declare w p.type true hp).trans hspares)

/-! ## Loops -/

/-- A counter that is used again is a variable of the running call, or a global. -/
theorem own_of_reusesCounter (h : reusesCounter s name) : s.Own name := by
  intro i b hl
  rw [reusesCounter, hl] at h
  simp at h
  exact h.1.1

theorem after_enterFor_private {range : LoopRange} (hs : s.Private globals known)
    (hn : name ∉ globals) :
    ((enterFor range name).after s).Private globals (insert name known) := by
  rw [after_enterFor]
  split
  · next hr => exact hs.learn (own_of_reusesCounter hr)
  · exact hs.enterScope.declare (.integer range.start) .int true hn

theorem obeys_runFor {body : Eval Unit} (hn : name ∉ globals)
    (hb : Keeps (Obeys globals (insert name known)) body) (range : LoopRange) :
    Keeps (Obeys globals known) (runFor range name body) := by
  intro s hs
  have hloop := Keeps.forLoop signalling_obeys hb (obeys_setCounter (Set.mem_insert name known))
    range range.count range.start
  change s.Spares globals (after (if reusesCounter s name then
    forLoop range name body range.count range.start else inScope _) s)
  split
  · next hr => exact hloop s (hs.learn (own_of_reusesCounter hr))
  · rw [after_inScope]
    have he := hs.enterScope
    exact hs.spares_leaveScope ((he.spares_declare (.integer range.start) .int true hn).trans
      (hloop _ (he.declare (.integer range.start) .int true hn)))

/-! ## Trees -/

section

variable {n : Nat}
  (hc : ∀ known name vs position, Keeps (Obeys globals known) (Eval.call n name vs position))
  (laps : Nat)

include hc

set_option linter.unusedSectionVars false

mutual

theorem obeys_evaluate : ∀ {known : Set String} (e : Expr), e.Closed globals known →
    Keeps (Obeys globals known) (evaluate (Eval.call n) laps e)
  | _, .integer .., _ | _, .float .., _ | _, .boolean .., _ | _, .string .., _ =>
    Keeps.pure composes_obeys _
  | _, .name name span, _ => Keeps.read reporting_obeys name span.start
  | _, .group inner _, he => obeys_evaluate inner he
  | _, .binary _ left right span, he =>
    Keeps.bind composes_obeys (obeys_evaluate left he.1) fun _ =>
      Keeps.bind composes_obeys (obeys_evaluate right he.2) fun _ =>
        Keeps.settle reporting_obeys span.start _
  | _, .unary (.step step) operand span, he =>
    Keeps.bind composes_obeys (obeys_evaluate operand he) fun old =>
      Keeps.stepNamed composes_obeys
        (fun _ hn v => obeys_store (Expr.Closed.of_ungroup (e := operand) he hn) v span.start)
        step old
  | _, .unary .not operand span, he | _, .unary .negate operand span, he
  | _, .unary .plus operand span, he =>
    Keeps.bind composes_obeys (obeys_evaluate operand he) fun _ =>
      Keeps.settle reporting_obeys span.start _
  | _, .call callee arguments span, he =>
    Keeps.bind composes_obeys (obeys_evaluateAll arguments he) fun vs => hc _ callee vs span.start
  | _, .range start stop _ _ _ _, he =>
    Keeps.bind composes_obeys (obeys_evaluate start he.1) fun a =>
      Keeps.bind composes_obeys (Keeps.toBound reporting_obeys a start.span.start) fun _ =>
        Keeps.bind composes_obeys (obeys_evaluate stop he.2.1) fun b =>
          Keeps.bind composes_obeys (Keeps.toBound reporting_obeys b stop.span.start) fun _ =>
            Keeps.pure composes_obeys _
  | _, .run ⟨body, _⟩ _, he => obeys_inScope (obeys_evaluateBlock body he _)

theorem obeys_evaluateAll : ∀ {known : Set String} (es : List Expr),
    Expr.AllClosed globals known es →
    Keeps (Obeys globals known) (evaluateAll (Eval.call n) laps es)
  | _, [], _ => Keeps.pure composes_obeys _
  | _, e :: es, he =>
    Keeps.bind composes_obeys (obeys_evaluate e he.1) fun _ =>
      Keeps.bind composes_obeys (obeys_evaluateAll es he.2) fun _ => Keeps.pure composes_obeys _

theorem obeys_evaluateOption : ∀ {known : Set String} (e : Option Expr),
    Expr.OptionClosed globals known e →
    Keeps (Obeys globals known) (evaluateOption (Eval.call n) laps e)
  | _, none, _ => Keeps.pure composes_obeys _
  | _, some e, he => Keeps.map composes_obeys (obeys_evaluate e he) some

theorem obeys_evaluateBlock : ∀ {known : Set String} (body : List Stmt),
    Stmt.AllClosed globals known body → ∀ last : Value,
    Keeps (Obeys globals known) (evaluateBlock (Eval.call n) laps body last)
  | _, [], _, _ => Keeps.pure composes_obeys _
  | _, b :: rest, ⟨hb, hrest⟩, last => by
    have hs := obeys_execute b hb
    have hrest := obeys_evaluateBlock rest hrest
    have hnext (v : Value) : Keeps (Obeys globals (b.bind _)) (do
        if (← get).signals.any then return v else evaluateBlock (Eval.call n) laps rest v) :=
      Keeps.bind composes_obeys (Keeps.get composes_obeys) fun t => by
        split
        · exact Keeps.pure composes_obeys v
        · exact hrest v
    cases b with
    | expression e =>
      exact Keeps.bind composes_obeys (obeys_evaluate e hb) fun v => hnext v
    | _ => exact obeys_behind hs (hnext _)

theorem obeys_loopRange (position : Position) : ∀ {known : Set String} (e : Expr),
    e.Closed globals known →
    Keeps (Obeys globals known) (loopRange (Eval.call n) laps position e)
  | _, .group inner _, he => obeys_loopRange position inner he
  | _, .range start stop _ _ step _, he =>
    Keeps.bind composes_obeys (obeys_evaluate start he.1) fun a =>
      Keeps.bind composes_obeys (Keeps.toBound reporting_obeys a start.span.start) fun _ =>
        Keeps.bind composes_obeys (obeys_evaluate stop he.2.1) fun b =>
          Keeps.bind composes_obeys (Keeps.toBound reporting_obeys b stop.span.start) fun _ =>
            Keeps.bind composes_obeys (obeys_loopStep step he.2.2) fun _ =>
              Keeps.pure composes_obeys _
  | _, .integer .., _ | _, .float .., _ | _, .boolean .., _ | _, .string .., _ | _, .name .., _
  | _, .binary .., _ | _, .unary .., _ | _, .call .., _ | _, .run .., _ =>
    Keeps.fail composes_obeys _ position

theorem obeys_loopStep : ∀ {known : Set String} (e : Option Expr),
    Expr.OptionClosed globals known e →
    Keeps (Obeys globals known) (loopStep (Eval.call n) laps e)
  | _, none, _ => Keeps.pure composes_obeys _
  | _, some e, he =>
    Keeps.bind composes_obeys (obeys_evaluate e he) fun v =>
      Keeps.bind composes_obeys (Keeps.toBound reporting_obeys v e.span.start) fun m =>
        Keeps.bind composes_obeys (Keeps.checkStep composes_obeys m e.span.start) fun _ =>
          Keeps.pure composes_obeys _

theorem obeys_execute : ∀ {known : Set String} (b : Stmt), b.Closed globals known →
    Keeps (Obeys globals known) (execute (Eval.call n) laps b)
  | _, .expression e, hb =>
    Keeps.bind composes_obeys (obeys_evaluate e hb) fun _ => Keeps.pure composes_obeys _
  | _, .declare name constant type value span, hb =>
    Keeps.bind composes_obeys (obeys_evaluateOption value hb.2) fun v s hs => by
      obtain ⟨t, ht, hspares, -⟩ := private_declare hs hb.1
      rwa [after_ok ht]
  | _, .assign target operator value span, hb =>
    Keeps.bind composes_obeys (obeys_evaluateOption value hb.2) fun v =>
      Keeps.assign reporting_obeys (fun v => obeys_store hb.1 v span.start) operator v
  | _, .print value _ _, hb =>
    Keeps.bind composes_obeys (obeys_evaluateOption value hb) fun _ =>
      Keeps.modified fun _ _ => .of_eq rfl rfl rfl
  | _, .block ⟨body, _⟩, hb => obeys_inScope (obeys_executeAll body hb)
  | _, .branch condition thenBody elseBody _, hb =>
    Keeps.bind composes_obeys (obeys_evaluate condition hb.1) fun v => by
      split
      · exact obeys_execute thenBody hb.2.1
      · exact obeys_executeOption elseBody hb.2.2
  | _, .whileLoop condition body _, hb =>
    Keeps.whileLoop signalling_obeys (obeys_execute body hb.2)
      (Keeps.map composes_obeys (obeys_evaluate condition hb.1) _) laps
  | _, .doWhile body condition _, hb =>
    Keeps.doWhile signalling_obeys (obeys_execute body hb.2)
      (Keeps.map composes_obeys (obeys_evaluate condition hb.1) _) laps
  | _, .forLoop counter range body span, hb =>
    Keeps.bind composes_obeys (obeys_loopRange range.span.start range hb.2.1) fun bounds =>
      obeys_runFor hb.1 (obeys_execute body hb.2.2) bounds
  | _, .function _, _ => Keeps.pure composes_obeys _
  | _, .return value _, hb =>
    Keeps.bind composes_obeys (obeys_evaluateOption value hb) fun _ =>
      Keeps.modified fun _ _ => .of_eq rfl rfl rfl
  | _, .break _, _ | _, .continue _, _ => Keeps.modifySignals signalling_obeys _

theorem obeys_executeOption : ∀ {known : Set String} (b : Option Stmt),
    Stmt.ElseClosed globals known b →
    Keeps (Obeys globals known) (executeOption (Eval.call n) laps b)
  | _, none, _ => Keeps.pure composes_obeys _
  | _, some b, hb => obeys_execute b hb

theorem obeys_executeAll : ∀ {known : Set String} (body : List Stmt),
    Stmt.AllClosed globals known body →
    Keeps (Obeys globals known) (executeAll (Eval.call n) laps body)
  | _, [], _ => Keeps.pure composes_obeys _
  | _, b :: rest, ⟨hb, hrest⟩ => by
    have hrest := obeys_executeAll rest hrest
    refine obeys_behind (obeys_execute b hb)
      (Keeps.bind composes_obeys (Keeps.get composes_obeys) fun t => ?_)
    split
    · exact Keeps.pure composes_obeys _
    · exact hrest

end

end

/-! ## Calls -/

theorem detaches_enter {run : List Stmt → Eval Unit} {f : Function} (hf : f.Closed globals)
    (hr : ∀ known, Stmt.AllClosed globals known f.body.body →
      Keeps (Obeys globals known) (run f.body.body))
    {vs : List Value} (hl : f.parameters.length = vs.length) (position : Position) :
    Keeps (Detaches globals known) (enter run f vs position) := by
  intro s hs
  obtain ⟨t, ht, hspares, hprivate⟩ :=
    private_bindParameters position hl hs.enterFrame hf.1
  rw [after_enter ht]
  exact hs.spares_leaveFrame (hspares.trans (hr _ hf.2 t hprivate))

theorem detaches_callWith {run : List Stmt → Eval Unit}
    (hr : ∀ known body, Stmt.AllClosed globals known body →
      Keeps (Obeys globals known) (run body))
    (name : String) (vs : List Value) (position : Position) :
    Keeps (Detaches globals known) (callWith run name vs position) := by
  intro s hs
  refine (?_ : Detaches globals known s _) hs
  -- What is called is closed, as is every function that is known in this state.
  rw [callWith, after_get_bind]
  cases hf : s.functions.find? name with
  | none => exact Keeps.reportWith reporting_detaches _ position _ s
  | some f =>
    dsimp only
    split
    · next hl =>
      exact Keeps.bind reporting_detaches.toComposes
        (detaches_enter (hs.functions name f hf) (fun known => hr known _) hl position)
        (fun v => Keeps.resultOf reporting_detaches _ v position) s
    · exact Keeps.reportWith reporting_detaches _ position _ s

/-- A call changes the outermost scope only, by induction on how deep calls nest. -/
theorem detaches_call (n : Nat) (known : Set String) (name : String) (vs : List Value)
    (position : Position) : Keeps (Detaches globals known) (call n name vs position) := by
  induction n generalizing known name vs position with
  | zero => exact Keeps.outOfFuel reporting_detaches.toComposes
  | succ n ih =>
    refine detaches_callWith (fun known body hb => obeys_executeAll (fun known name vs position =>
      (ih known name vs position).weaken obeys_of_detaches) n body hb) name vs position

theorem obeys_call (n : Nat) (known : Set String) (name : String) (vs : List Value)
    (position : Position) : Keeps (Obeys globals known) (call n name vs position) :=
  (detaches_call n known name vs position).weaken obeys_of_detaches

end Eval

end ScriptLang
