import ScriptLang.Proofs.Evaluation.Enclosure
import ScriptLang.Proofs.Evaluation.Invariant
import ScriptLang.Proofs.Typing.Judgment

/-!
# Variables hold what their types say

A store widens a value and coerces it first, but for the counter of a `for`, which is
set without a look at its variable. It is one of type `Int` throughout the loop, unless
the body declares another of its name in its place.
-/

namespace ScriptLang

/-- Each variable of each scope holds a value that fits its declared type. -/
def Environment.Sound (e : Environment) : Prop :=
  ∀ scope ∈ e.scopes, ∀ name b, scope.find? name = some b → b.Consistent

namespace Environment

variable {e e' : Environment} {name : String} {b : Binding} {v : Value}

theorem Sound.push (h : e.Sound) : e.push.Sound := by
  intro scope hscope
  rcases List.mem_cons.mp hscope with rfl | hscope
  · intro name b hb
    cases hb
  · exact h scope hscope

theorem Sound.pop (h : e.Sound) : e.pop.Sound := by
  obtain ⟨scopes⟩ := e
  match scopes, h with
  | [], h | [_], h => exact h
  | _ :: _ :: _, h => exact fun scope hscope => h scope (List.mem_cons_of_mem _ hscope)

theorem sound_insert {scope : Scope} (h : ∀ name b, scope.find? name = some b → b.Consistent)
    (hb : b.Consistent) (other : String) (c : Binding)
    (hc : (scope.insert name b).find? other = some c) : c.Consistent := by
  rw [NameMap.find?_insert] at hc
  split at hc
  · cases hc
    exact hb
  · exact h other c hc

theorem Sound.bind (h : e.Sound) (hb : b.Consistent) : (e.bind name b).Sound := by
  obtain ⟨scopes⟩ := e
  cases scopes with
  | nil => exact h
  | cons inner outer =>
    intro scope hscope
    rcases List.mem_cons.mp hscope with rfl | hscope
    · exact sound_insert (h inner List.mem_cons_self) hb
    · exact h scope (List.mem_cons_of_mem _ hscope)

/-- A value of its type fits a variable. -/
theorem consistent_of_type {type : DeclaredType} (h : v.type = type.valueType) (mutable : Bool) :
    (⟨v.widen type, type, mutable⟩ : Binding).Consistent := by
  rw [Value.widen_of_type h]
  exact .inl h

/-- A store is sound if the value is one of the type of the variable it goes to. -/
theorem Sound.update (h : e.Sound) (hu : e.update name v = .ok e')
    (hv : ∀ b, e.find? name = some b → b.Consistent → v.type = b.type.valueType) : e'.Sound := by
  obtain ⟨scopes⟩ := e
  unfold Environment.update at hu
  split at hu
  · cases hu
  · split at hu
    · cases hu
      clear * - h hv
      induction scopes with
      | nil => exact h
      | cons inner outer ih =>
        have hinner := h inner List.mem_cons_self
        have houter : Environment.Sound ⟨outer⟩ := fun scope hscope =>
          h scope (List.mem_cons_of_mem _ hscope)
        rw [storeIn]
        cases hb : inner.find? name with
        | none =>
          have hs := ih houter fun b hf => hv b (by
            rw [Environment.find?, List.findSome?_cons, hb]
            exact hf)
          intro scope hscope
          rcases List.mem_cons.mp hscope with rfl | hscope
          · exact hinner
          · exact hs scope hscope
        | some b =>
          have hf : Environment.find? ⟨inner :: outer⟩ name = some b := by
            rw [Environment.find?, List.findSome?_cons, hb]
          have ht := hv b hf (hinner name b hb)
          intro scope hscope
          rcases List.mem_cons.mp hscope with rfl | hscope
          · exact sound_insert hinner (consistent_of_type ht b.mutable)
          · exact houter scope hscope
    · cases hu

end Environment

/-- No `for` declares its own counter in its body, but in blocks of it. -/
def steadyCounters : NodeProperty where
  expr _ := True
  stmt
    | .forLoop counter _ body _ => body.declares counter = false
    | _ => True

namespace Evaluation

/-- Variables are sound, and so are functions when they are called. -/
structure Sound (s : Evaluation) : Prop where
  environment : s.environment.Sound
  rooted : s.environment.Rooted
  functions : s.Holds steadyCounters

/-- The variable of the name can count. -/
def Counts (counter : String) (s : Evaluation) : Prop :=
  ∃ b, s.environment.find? counter = some b ∧ b.mutable = true ∧ b.type = .int

variable {s t : Evaluation} {name : String} {v : Value} {type : DeclaredType}

theorem Sound.declare (h : s.Sound) {mutable : Bool}
    (hb : (⟨v.widen type, type, mutable⟩ : Binding).Consistent) :
    Sound { s with environment := s.environment.declare name v type mutable } where
  environment := h.environment.bind hb
  rooted := (Environment.below_declare Binding.Kept.refl s.environment name v type mutable).rooted
    h.rooted
  functions := h.functions

theorem Sound.update {e : Environment} (h : s.Sound) (hu : s.environment.update name v = .ok e)
    (hv : ∀ b, s.environment.find? name = some b → b.Consistent → v.type = b.type.valueType) :
    Sound { s with environment := e } where
  environment := h.environment.update hu hv
  rooted := by
    rw [Environment.rooted_iff, Environment.depth_update hu]
    exact Environment.rooted_iff.mp h.rooted
  functions := h.functions

theorem Sound.enterScope (h : s.Sound) : s.enterScope.Sound :=
  ⟨h.environment.push, List.cons_ne_nil _ _, h.functions⟩

theorem Sound.leaveScope (h : s.Sound) : s.leaveScope.Sound :=
  ⟨h.environment.pop, Environment.rooted_pop h.rooted, h.functions⟩

theorem Counts.of_retains (hc : s.Counts name) (hs : s.environment.Rooted)
    (h : s.Retains name t) : t.Counts name := by
  obtain ⟨b, hb, hm, ht⟩ := hc
  have hr := (h hs).2
  rw [hb] at hr
  obtain ⟨c, hf, hk⟩ := Environment.exists_of_rel_some hr
  exact ⟨c, hf, hk.mutable.trans hm, hk.type.trans ht⟩

theorem counts_of_reusesCounter (h : Eval.reusesCounter s name = true) : s.Counts name := by
  unfold Eval.reusesCounter at h
  cases hl : s.environment.locate? name with
  | none =>
    rw [hl] at h
    cases h
  | some place =>
    rw [hl] at h
    have hf := s.environment.find?_eq_locate? name
    rw [hl] at hf
    simp only [Bool.and_eq_true, decide_eq_true_eq] at h
    exact ⟨place.2, hf, h.1.2, h.2⟩

theorem counts_declare (hs : s.environment.Rooted) :
    Counts name { s with environment := s.environment.declare name v .int true } :=
  ⟨⟨v.widen .int, .int, true⟩, by
    change (s.environment.bind name _).find? name = _
    rw [Environment.find?_bind hs, if_pos rfl], rfl, rfl⟩

end Evaluation

/-- Evaluation keeps variables sound. -/
def soundness : Contract := ⟨fun s t => s.Sound → t.Sound, fun s t => s.Sound → t.Sound⟩

open Evaluation

namespace Eval

variable {s t : Evaluation} {v w : Value} {type : DeclaredType} {name : String}
  {position : Position}

/-! ## Operations -/

theorem coerce_ok (h : coerce v type position s = .ok w t) :
    w.type = type.valueType ∧ t.environment = s.environment := by
  unfold coerce at h
  cases hc : v.convert? type with
  | some u =>
    rw [hc] at h
    cases h
    exact ⟨Value.type_of_convert? hc, rfl⟩
  | none =>
    rw [hc] at h
    cases h
    exact ⟨Value.type_zero type, rfl⟩

theorem settle_ok {o : Outcome} (h : settle position o s = .ok w t) :
    t.environment = s.environment := by
  cases o <;> cases h <;> rfl

theorem read_ok (h : read name position s = .ok w t) :
    t.environment = s.environment ∧ ∀ b, s.environment.find? name = some b → w = b.value := by
  obtain ⟨_, _, hg, h⟩ := bind_ok.mp h
  cases hg
  cases hb : s.environment.find? name with
  | none =>
    rw [hb] at h
    cases h
    exact ⟨rfl, nofun⟩
  | some b =>
    rw [hb] at h
    cases h
    exact ⟨rfl, fun c hc => congrArg Binding.value (Option.some.inj hc)⟩

/-! ## What is stored -/

section

variable {r : Evaluation → Evaluation → Prop} (hr : Reporting r)

include hr

/-- A step stores a step of what the variable holds. -/
theorem step_of_store (step : Step) (name : String) (place position : Position)
    (hstore : ∀ t v, t.environment = s.environment →
      (∀ b, s.environment.find? name = some b → step.apply? b.value = some v) →
        r t ((store name v position).after t)) :
    r s ((do stepNamed step (some name) (← read name place) position : Eval Value).after s) := by
  have hc := hr.toComposes
  refine hc.bind (Keeps.read hr name place s) fun old t h => ?_
  obtain ⟨he, hold⟩ := read_ok h
  unfold stepNamed
  cases hnew : step.apply? old with
  | none => exact hc.refl t
  | some new =>
    exact hc.bind (hstore t new he fun b hb => hold b hb ▸ hnew) fun _ u _ => hc.refl u

/-- An assignment stores a step of what the variable holds, or a value of its type. -/
theorem assign_of_store (target : String) (operator : AssignOperator) (value : Option Value)
    (position : Position)
    (hstore : ∀ t b v, t.environment = s.environment → s.environment.find? target = some b →
      ((∃ step : Step, step.apply? b.value = some v) ∨
        operator.isStep = false ∧ v.type = b.type.valueType) →
          r t ((store target v position).after t)) :
    r s ((assign target operator value position).after s) := by
  have hc := hr.toComposes
  have hcoerce (v : Value) {b : Binding} (hb : s.environment.find? target = some b)
      (ho : operator.isStep = false) {t : Evaluation} (ht : t.environment = s.environment) :
      r t ((do store target (← coerce v b.type position) position : Eval Unit).after t) := by
    refine hc.bind (Keeps.coerce hr v b.type position t) fun w u hw => ?_
    obtain ⟨hw, hu⟩ := coerce_ok hw
    exact hstore u b w (hu.trans ht) hb (.inr ⟨ho, hw⟩)
  rw [assign, after_get_bind]
  cases hb : s.environment.find? target with
  | none => exact Keeps.report hr _ position s
  | some b =>
    dsimp only
    split
    · exact Keeps.report hr _ position s
    · cases operator with
      | step step =>
        dsimp only
        cases hnew : step.apply? b.value with
        | none => exact hc.refl s
        | some new => exact hstore s b new rfl hb (.inl ⟨step, hnew⟩)
      | set => exact hcoerce _ hb rfl rfl
      | combine o =>
        refine hc.bind (Keeps.settle hr position _ s) fun v t hv => ?_
        exact hcoerce v hb rfl (settle_ok hv)

end

/-- A step of what a variable holds can be stored in it, and has the type of what it holds. -/
theorem type_of_step {step : Step} {b : Binding} (hb : b.Consistent)
    (hv : step.apply? b.value = some v) :
    v.type = b.value.type ∧ v.type = b.type.valueType := by
  obtain ⟨ht, hn⟩ := Step.type_of_apply? hv
  exact ⟨ht, (hb.widen ht (by rw [ht]; exact hn)).2⟩

/-! ## Sound operations -/

theorem composes_soundness : Composes fun s t : Evaluation => s.Sound → t.Sound :=
  ⟨fun _ => id, fun h h' hs => h' (h hs)⟩

theorem reporting_soundness : Reporting fun s t : Evaluation => s.Sound → t.Sound :=
  ⟨composes_soundness, fun _ _ hs => ⟨hs.environment, hs.rooted, hs.functions⟩⟩

theorem signalling_soundness : Signalling fun s t : Evaluation => s.Sound → t.Sound :=
  ⟨composes_soundness, fun _ _ _ hs => ⟨hs.environment, hs.rooted, hs.functions⟩⟩

theorem sound_store
    (hv : ∀ b, s.environment.find? name = some b → b.Consistent → v.type = b.type.valueType)
    (hs : s.Sound) : ((store name v position).after s).Sound := by
  rcases after_store name v position s with ⟨e, hu, ht⟩ | ⟨fault, ht⟩
  · rw [ht]
    exact hs.update hu hv
  · rw [ht]
    exact ⟨hs.environment, hs.rooted, hs.functions⟩

theorem sound_step (step : Step) (name : String) (place position : Position) :
    Keeps soundness.onExpr (do stepNamed step (some name) (← read name place) position) := by
  intro s
  refine step_of_store reporting_soundness step name place position fun t v he hnew => ?_
  refine sound_store fun b hb hc => ?_
  rw [he] at hb
  exact (type_of_step hc (hnew b hb)).2

theorem sound_assign (target : String) (operator : AssignOperator) (value : Option Value)
    (position : Position) : Keeps soundness.onExpr (assign target operator value position) := by
  intro s
  refine assign_of_store reporting_soundness target operator value position
    fun t b v he hb hv => sound_store fun c hc hcons => ?_
  rw [he, hb] at hc
  cases hc
  rcases hv with ⟨step, hnew⟩ | ⟨-, ht⟩
  · exact (type_of_step hcons hnew).2
  · exact ht

theorem sound_declare (name : String) (constant : Bool) (type : Option DeclaredType)
    (value : Option Value) (position : Position) :
    Keeps soundness.onStmt (declare name constant type value position) := by
  intro s
  unfold declare
  dsimp only
  split
  · exact fun hs => hs.declare (.inr ⟨rfl, rfl⟩)
  · refine composes_soundness.bind (Keeps.coerce reporting_soundness _ _ position s)
      fun w t hw ht => ht.declare ?_
    exact Environment.consistent_of_type (coerce_ok hw).1 _
  · exact fun hs => hs.declare (Environment.consistent_of_type (Value.type_zero _) _)

theorem sound_bindParameters (ps : List Parameter) (vs : List Value) (position : Position) :
    Keeps soundness.onStmt (bindParameters ps vs position) := by
  induction ps generalizing vs with
  | nil => cases vs <;> exact fun _ => id
  | cons p ps ih =>
    cases vs with
    | nil => exact fun _ => id
    | cons v vs =>
      intro s
      refine composes_soundness.bind (Keeps.coerce reporting_soundness v p.type position s)
        fun w t hw => composes_soundness.bind (fun ht => ?_) fun _ u _ => ih vs u
      exact ht.declare (Environment.consistent_of_type (coerce_ok hw).1 _)

/-! ## Counters -/

/-- Soundness, while a variable counts. -/
def counting (counter : String) (s t : Evaluation) : Prop :=
  s.Sound → s.Counts counter → t.Sound ∧ t.Counts counter

theorem signalling_counting (counter : String) : Signalling (counting counter) where
  refl _ hs hc := ⟨hs, hc⟩
  trans h h' hs hc := h' (h hs hc).1 (h hs hc).2
  signal _ _ _ hs hc := ⟨⟨hs.environment, hs.rooted, hs.functions⟩, hc⟩

theorem counting_setCounter (counter : String) (n : Int64) :
    Keeps (counting counter) (setCounter counter n) := by
  intro s hs hc
  have hk := keeps_setCounter lawful_enclosure counter n s
  refine ⟨?_, hc.of_retains hs.rooted (retains_of_enclosure hk)⟩
  rcases after_setCounter counter n s with ⟨e, hu, ht⟩ | ht
  · rw [ht]
    refine hs.update hu fun b hb _ => ?_
    obtain ⟨c, hc, -, htype⟩ := hc
    obtain rfl : c = b := Option.some.inj (hc.symm.trans hb)
    rw [htype]
    rfl
  · rw [ht]
    exact hs

theorem counting_execute {nesting laps : Nat} {counter : String} {body : Stmt}
    (hd : body.declares counter = false)
    (hb : Keeps soundness.onStmt (execute (call nesting) laps body)) :
    Keeps (counting counter) (execute (call nesting) laps body) := fun s hs hc =>
  ⟨hb s hs, hc.of_retains hs.rooted (retains_execute nesting laps body hd s)⟩

theorem sound_runFor {body : Eval Unit} {counter : String}
    (hb : Keeps (counting counter) body) (range : LoopRange) :
    Keeps soundness.onStmt (runFor range counter body) := by
  intro s hs
  have hloop := Keeps.forLoop (signalling_counting counter) hb (counting_setCounter counter) range
    range.count range.start
  change Evaluation.Sound (after (if reusesCounter s counter then
    forLoop range counter body range.count range.start else inScope _) s)
  split
  · next hr => exact (hloop s hs (counts_of_reusesCounter hr)).1
  · rw [after_inScope]
    have hd : Evaluation.Sound { s.enterScope with
        environment := s.enterScope.environment.declare counter (.integer range.start) .int true } :=
      hs.enterScope.declare (.inl rfl)
    exact (hloop _ hd (counts_declare hs.enterScope.rooted)).1.leaveScope

end Eval

theorem governs_soundness : soundness.Governs steadyCounters where
  expr := Eval.reporting_soundness
  stmt := Eval.signalling_soundness
  weaken := id
  emit := fun _ _ hs => ⟨hs.environment, hs.rooted, hs.functions⟩
  step := Eval.sound_step
  assign := Eval.sound_assign
  declare := Eval.sound_declare
  parameters := Eval.sound_bindParameters
  loop := fun _ _ _ _ _ _ hp hb bounds => Eval.sound_runFor (Eval.counting_execute hp hb) bounds
  scope := fun h hs => (h hs.enterScope).leaveScope
  frame := fun h hs => by
    have ht := h ⟨hs.environment.push, List.cons_ne_nil _ _, hs.functions⟩
    exact ⟨ht.environment.pop, Environment.rooted_pop ht.rooted, ht.functions⟩
  known := fun h hs => h hs.functions hs

theorem preserved_soundness : Eval.Preserved soundness steadyCounters Evaluation.Sound Counts where
  governs := governs_soundness
  holds := fun _ hs => hs.functions
  stmt := fun h hs => h hs
  scope := fun _ hs => hs.enterScope
  frame := fun _ hs => ⟨hs.environment.push, List.cons_ne_nil _ _, hs.functions⟩
  enterFor := fun range counter s hs => by
    rw [Eval.after_enterFor]
    split
    · next hr => exact ⟨hs, counts_of_reusesCounter hr⟩
    · exact ⟨hs.enterScope.declare (.inl rfl), counts_declare hs.enterScope.rooted⟩
  setCounter := Eval.counting_setCounter
  signal := fun _ _ _ _ hc => hc
  body := fun nesting laps _ _ body _ hp _ s hs hc =>
    hc.of_retains hs.rooted (Eval.retains_execute nesting laps body hp s)

/-! ## Programs -/

namespace Eval

theorem sound_registerAll {fs : List Function}
    (hf : ∀ f ∈ fs, steadyCounters.InStmts f.body.body) :
    Keeps soundness.onStmt (registerAll fs) := by
  induction fs with
  | nil => exact fun _ => id
  | cons f fs ih =>
    have hinsert : Keeps soundness.onStmt
        (modify fun s => { s with functions := s.functions.insert f.name f }) := by
      refine fun s hs => ⟨hs.environment, hs.rooted, fun name g hg => ?_⟩
      change (s.functions.insert f.name f).find? name = some g at hg
      rw [NameMap.find?_insert] at hg
      split at hg
      · cases hg
        exact hf f List.mem_cons_self
      · exact hs.functions name g hg
    have hregister : Keeps soundness.onStmt (register f) := by
      refine Keeps.bind composes_soundness (Keeps.get composes_soundness) fun s => ?_
      split
      · exact Keeps.bind composes_soundness (Keeps.report reporting_soundness _ _) fun _ => hinsert
      · exact hinsert
    exact Keeps.bind composes_soundness hregister fun _ =>
      ih fun g hg => hf g (List.mem_cons_of_mem _ hg)

theorem sound_runTopLevel (fuel : Nat) {body : List Stmt} (hb : steadyCounters.InStmts body) :
    Keeps soundness.onStmt (runTopLevel fuel body) := by
  induction body with
  | nil => exact fun _ => id
  | cons b rest ih =>
    have hclear : Keeps soundness.onStmt
        (modify fun s => { s with signals := .clear, returned := none }) :=
      fun _ hs => ⟨hs.environment, hs.rooted, hs.functions⟩
    exact Keeps.bind composes_soundness (preserved_soundness.keeps_execute fuel fuel hb.1)
      fun _ => Keeps.bind composes_soundness hclear fun _ => ih hb.2

theorem resultOf_ok {returned : Option Value} {s t : Evaluation} {v : Value} {type : DeclaredType}
    {position : Position} (h : resultOf type returned position s = .ok v t) :
    v.type = type.valueType := by
  cases returned with
  | none => cases type <;> cases h <;> rfl
  | some w =>
    cases type with
    | unit =>
      cases h
      rfl
    | _ => exact (coerce_ok h).1

/-- A call of a function that is known has a value of its result type. -/
theorem type_of_call {nesting : Nat} {name : String} {f : Function} {vs : List Value}
    {position : Position} {s t : Evaluation} {v : Value} (hf : s.functions.find? name = some f)
    (h : call nesting name vs position s = .ok v t) : v.type = f.returns.valueType := by
  cases nesting with
  | zero => cases h
  | succ n =>
    obtain ⟨_, _, hg, h⟩ := bind_ok.mp h
    cases hg
    rw [hf] at h
    dsimp only at h
    split at h
    · obtain ⟨returned, u, -, h⟩ := bind_ok.mp h
      exact resultOf_ok h
    · obtain ⟨_, _, -, h⟩ := bind_ok.mp h
      cases h
      exact Value.type_zero _

end Eval

theorem Evaluation.sound_new : Evaluation.new.Sound where
  environment := by
    intro scope hscope name b hb
    obtain rfl := List.mem_singleton.mp hscope
    cases hb
  rooted := List.cons_ne_nil _ _
  functions := by
    intro name f hf
    cases hf

section

variable {p : Program} (h : steadyCounters.InProgram p)

include h

/-- What a run does before a task leaves sound variables. -/
theorem Program.sound_before (fuel : Nat) {body : List Stmt} (hb : steadyCounters.InStmts body) :
    ((do Eval.registerAll p.functions; Eval.runTopLevel fuel body).after .new).Sound :=
  Eval.Keeps.bind Eval.composes_soundness
    (Eval.sound_registerAll fun _ => NodeProperty.inStmts_of_functions h)
    (fun _ => Eval.sound_runTopLevel fuel hb) .new Evaluation.sound_new

theorem Program.sound_starts {fuel : Nat} {t : Eval.Task} {s : Evaluation}
    (hs : p.Starts fuel t s) : s.Sound ∧ t.activity.Fits steadyCounters Counts s := by
  have htop := NodeProperty.inStmts_topLevel h
  cases hs with
  | topLevel hsplit hrun =>
    rw [hsplit, NodeProperty.inStmts_iff] at htop
    have hbefore := NodeProperty.inStmts_iff.mpr fun b hb => htop b (List.mem_append_left _ hb)
    have hsound := sound_before h fuel hbefore
    rw [Eval.after_ok hrun] at hsound
    exact ⟨hsound, htop _ (List.mem_append_right _ List.mem_cons_self)⟩
  | main hrun =>
    have hsound := sound_before h fuel htop
    rw [Eval.after_ok hrun] at hsound
    exact ⟨hsound, trivial⟩

theorem Program.sound_run (fuel : Nat) : ((Eval.run fuel p).after .new).Sound := by
  have hc := Eval.composes_soundness
  have hrun : Eval.Keeps soundness.onStmt (Eval.run fuel p) := by
    have hfunctions := Eval.sound_registerAll fun _ => NodeProperty.inStmts_of_functions h
    refine Eval.Keeps.bind hc hfunctions fun _ =>
      Eval.Keeps.bind hc (Eval.sound_runTopLevel fuel (NodeProperty.inStmts_topLevel h)) fun _ =>
        Eval.Keeps.bind hc (Eval.Keeps.get hc) fun s => ?_
    split
    · exact Eval.Keeps.bind hc (governs_soundness.call fuel "main" [] _) fun _ =>
        Eval.Keeps.pure hc _
    · exact Eval.Keeps.fail hc _ _
  exact hrun .new Evaluation.sound_new

end

/-- In a program without a `for` that declares its own counter in its place, each
variable of each scope holds a value of its declared type, or a range under `Int`, in all
states that a run comes through. And in any state, a call of a function that is known has
a value of its result type, if it has one. -/
theorem Program.sound {p : Program} (h : steadyCounters.InProgram p) (fuel : Nat) :
    (∀ s, p.Visits fuel s → s.environment.Sound) ∧
    ∀ nesting name f vs position s v t, s.functions.find? name = some f →
      Eval.call nesting name vs position s = .ok v t → v.type = f.returns.valueType := by
  refine ⟨fun s hs => ?_, fun nesting name f vs position s v t hf hv => Eval.type_of_call hf hv⟩
  cases hs with
  | start hstart hr =>
    obtain ⟨hs, ht⟩ := sound_starts h hstart
    exact (hr.preserved preserved_soundness hs ht).1.environment
  | @stop _ t _ u hstart hr =>
    obtain ⟨hs, ht⟩ := sound_starts h hstart
    obtain ⟨hs, ht⟩ := hr.preserved preserved_soundness hs ht
    exact (preserved_soundness.after_run t hs ht).environment
  | finish => exact (sound_run h fuel).environment

/-- A counter that is declared once more in a block, and a global that holds a range. -/
theorem Program.sound_shadowed :
    let p : Program := ⟨[
      .declare "r" false none (some (.range (.integer 1 default) (.integer 3 default) false false
        none default)) default,
      .function ⟨"main", [], .int, ⟨[
        .forLoop "i" (.range (.integer 5 default) (.integer 6 default) false false none default)
          (.block ⟨[.declare "i" false none (some (.string "a" default)) default], default⟩)
          default], default⟩, default⟩], default⟩
    steadyCounters.InProgram p ∧ (∀ s, p.Visits 2 s → s.environment.Sound) ∧
      ∀ name f vs position s v t, s.functions.find? name = some f →
        Eval.call 2 name vs position s = .ok v t → v.type = f.returns.valueType := by
  intro p
  have h : steadyCounters.InProgram p :=
    ⟨⟨trivial, trivial, trivial, trivial, trivial⟩,
      ⟨trivial, ⟨rfl, ⟨trivial, trivial, trivial, trivial⟩, trivial,
        ⟨trivial, trivial⟩, trivial⟩, trivial⟩, trivial⟩
  exact ⟨h, (Program.sound h 2).1, (Program.sound h 2).2 2⟩

end ScriptLang
