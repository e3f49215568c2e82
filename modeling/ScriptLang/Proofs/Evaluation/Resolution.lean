import ScriptLang.Proofs.Evaluation.Sparing

/-!
# What names mean in a run

In a program whose functions are closed, whatever is run in a call finds the variables of
the call under the names it reads, assigns to or steps, or globals, and never those of a
caller. In other programs names that a function does not declare mean variables of its
callers, which it may change.
-/

namespace ScriptLang

open Evaluation

namespace Eval

/-- The trees of an activity are closed. -/
def Activity.Closed (globals known : Set String) : Activity → Prop
  | .value e | .bounds _ e => e.Closed globals known
  | .values es => Expr.AllClosed globals known es
  | .option e | .step e => Expr.OptionClosed globals known e
  | .block stmts _ | .body stmts => Stmt.AllClosed globals known stmts
  | .statement b => b.Closed globals known
  | .alternative b => Stmt.ElseClosed globals known b
  | .whileLaps d b _ | .doLaps b d _ => d.Closed globals known ∧ b.Closed globals known
  | .forLaps _ counter b _ _ => counter ∈ known ∧ b.Closed globals known
  | .call .. => True

/-- A task is closed where it runs. -/
def Task.Sealed (globals : Set String) (t : Task) (s : Evaluation) : Prop :=
  ∃ known, s.Private globals known ∧ t.activity.Closed globals known

/-- In a task that runs from the state, a name is used in another: read, assigned to or
stepped, behind the value that is assigned, or set as the counter of a lap. -/
inductive Task.Uses (s : Evaluation) : Task → String → Evaluation → Prop
  | read {n laps : Nat} (name : String) (span : Span) :
    Uses s ⟨n, laps, .value (.name name span)⟩ name s
  | step {n laps : Nat} {step : Step} {operand : Expr} {span : Span} {name : String} {v : Value}
      {u : Evaluation} : operand.ungroup.name? = some name →
    evaluate (Eval.call n) laps operand s = .ok v u →
    Uses s ⟨n, laps, .value (.unary (.step step) operand span)⟩ name u
  | assign {n laps : Nat} {target : String} {operator : AssignOperator} {value : Option Expr}
      {span : Span} {v : Option Value} {u : Evaluation} :
    evaluateOption (Eval.call n) laps value s = .ok v u →
    Uses s ⟨n, laps, .statement (.assign target operator value span)⟩ target u
  | count {n laps : Nat} (range : LoopRange) (counter : String) (body : Stmt) (count : Nat)
      (m : Int64) : Uses s ⟨n, laps, .forLaps range counter body (count + 1) m⟩ counter s

section

variable {globals known : Set String}

/-! ## Tasks that are started -/

section

variable (n laps : Nat)

theorem leads_obeys {α : Type} {x : Eval α} (hx : Keeps (Obeys globals known) x) :
    Leads (Private globals known) x fun _ => Private globals known :=
  Leads.of_after fun s hs => hs.later (hx s hs)

theorem leads_value {e : Expr} (he : e.Closed globals known) :
    Leads (Private globals known) (evaluate (Eval.call n) laps e)
      fun _ => Private globals known := leads_obeys (obeys_evaluate (obeys_call n) laps e he)

theorem leads_bound {e : Expr} (he : e.Closed globals known) (position : Position) {α : Type}
    {f : Int64 → Eval α} {q : α → Evaluation → Prop}
    (hf : ∀ m, Leads (Private globals known) (f m) q) :
    Leads (Private globals known)
      (evaluate (Eval.call n) laps e >>= fun v => toBound v position >>= f) q :=
  (leads_value n laps he).bind fun v =>
    (leads_obeys (Keeps.toBound reporting_obeys v position)).bind hf

/-- What a statement declares is known to what is started behind it. -/
theorem leads_behind {b : Stmt} (hb : b.Closed globals known) :
    Leads (Private globals known) (execute (Eval.call n) laps b)
      fun _ => Private globals (b.bind known) := fun _ _ _ hs h =>
  private_of_execute (obeys_execute (obeys_call n) laps b hb) hs h

theorem leads_lap {b : Stmt} (hb : b.Closed globals known) :
    Leads (Private globals known) (lap (execute (Eval.call n) laps b))
      fun _ => Private globals known :=
  leads_obeys (Keeps.lap signalling_obeys (obeys_execute (obeys_call n) laps b hb))

theorem leads_signals (f : Signals → Signals) :
    Leads (Private globals known) (modifySignals f) fun _ => Private globals known :=
  leads_obeys (Keeps.modifySignals signalling_obeys f)

theorem leads_enterScope :
    Leads (Private globals known) enterScope fun _ => Private globals known :=
  Leads.modified fun _ hs => hs.enterScope

theorem seals {a : Activity} (ha : a.Closed globals known) :
    Leads (Private globals known) (Task.start n laps a) (Begins (Task.Sealed globals)) :=
  .begins n laps fun _ hs => ⟨known, hs, ha⟩

theorem sealsIf (condition : Bool) {a : Activity} (ha : a.Closed globals known) :
    Leads (Private globals known) (Task.startIf n laps condition a)
      (Begins (Task.Sealed globals)) :=
  .beginsIf n laps condition fun _ hs => ⟨known, hs, ha⟩

theorem sealsNext {a : Activity} (ha : a.Closed globals known) :
    Leads (Private globals known) (Task.proceed n laps a) (Begins (Task.Sealed globals)) :=
  .beginsNext n laps fun _ hs => ⟨known, hs, ha⟩

theorem seals_value {e : Expr} (he : e.Closed globals known) :
    ∀ x ∈ Task.starts ⟨n, laps, .value e⟩,
      Leads (Private globals known) x (Begins (Task.Sealed globals)) := by
  cases e with
  | group inner => exact List.forall_mem_singleton.mpr (seals n laps he)
  | binary o l r =>
    simpa using ⟨seals n laps he.1, (leads_value n laps he.1).bind fun _ => seals n laps he.2⟩
  | unary o e => exact List.forall_mem_singleton.mpr (seals n laps he)
  | call f es =>
    have hes := leads_obeys (obeys_evaluateAll (obeys_call n) laps es he)
    simpa using ⟨seals n laps he, hes.bind fun vs => seals n laps (a := .call f vs _) trivial⟩
  | range a b =>
    simpa using ⟨seals n laps he.1, leads_bound n laps he.1 _ fun _ => seals n laps he.2.1⟩
  | run b =>
    obtain ⟨body, _⟩ := b
    exact List.forall_mem_singleton.mpr (leads_enterScope.bind fun _ => seals n laps he)
  | _ => simp

theorem seals_block {body : List Stmt} (hb : Stmt.AllClosed globals known body) (last : Value) :
    ∀ x ∈ Task.starts ⟨n, laps, .block body last⟩,
      Leads (Private globals known) x (Begins (Task.Sealed globals)) := by
  cases body with
  | nil => simp
  | cons b rest =>
    obtain ⟨hb, hrest⟩ := hb
    have hbehind := leads_behind n laps hb
    cases b with
    | expression e =>
      simpa using ⟨seals n laps hb,
        (leads_value n laps hb).bind fun v => sealsNext n laps (a := .block rest v) hrest⟩
    | _ =>
      simpa using ⟨seals n laps hb,
        hbehind.bind fun _ => sealsNext n laps (a := .block rest (.integer 0)) hrest⟩

theorem seals_bounds (position : Position) {e : Expr} (he : e.Closed globals known) :
    ∀ x ∈ Task.starts ⟨n, laps, .bounds position e⟩,
      Leads (Private globals known) x (Begins (Task.Sealed globals)) := by
  cases e with
  | group inner => exact List.forall_mem_singleton.mpr (seals n laps he)
  | range a b x d step =>
    simpa using ⟨seals n laps he.1,
      leads_bound n laps he.1 _ fun _ => seals n laps he.2.1,
      leads_bound n laps he.1 _ fun _ => leads_bound n laps he.2.1 _ fun _ =>
        seals n laps (a := .step step) he.2.2⟩
  | _ => simp

theorem seals_statement {b : Stmt} (hb : b.Closed globals known) :
    ∀ x ∈ Task.starts ⟨n, laps, .statement b⟩,
      Leads (Private globals known) x (Begins (Task.Sealed globals)) := by
  cases b with
  | declare | assign => exact List.forall_mem_singleton.mpr (seals n laps hb.2)
  | expression | print | «return» => exact List.forall_mem_singleton.mpr (seals n laps hb)
  | block b =>
    obtain ⟨body, _⟩ := b
    exact List.forall_mem_singleton.mpr (leads_enterScope.bind fun _ => seals n laps hb)
  | branch c a b =>
    have hab (v : Value) : Leads (Private globals known)
        (if v.isTruthy then Task.start n laps (.statement a)
          else Task.start n laps (.alternative b)) (Begins (Task.Sealed globals)) := by
      split
      · exact seals n laps hb.2.1
      · exact seals n laps hb.2.2
    simpa using ⟨seals n laps hb.1, (leads_value n laps hb.1).bind hab⟩
  | whileLoop => exact List.forall_mem_singleton.mpr (seals n laps hb)
  | doWhile => exact List.forall_mem_singleton.mpr (seals n laps hb)
  | forLoop counter range body =>
    have hr := leads_obeys (obeys_loopRange (obeys_call n) laps range.span.start range hb.2.1)
    have hc (bounds : LoopRange) : Leads (Private globals known) (Eval.enterFor bounds counter)
        fun _ => Private globals (insert counter known) :=
      Leads.of_after fun s hs => after_enterFor_private hs hb.1
    simpa using ⟨seals n laps hb.2.1, hr.bind fun bounds => (hc bounds).bind fun _ =>
      seals n laps (a := .forLaps bounds counter body bounds.count bounds.start)
        ⟨Set.mem_insert counter known, hb.2.2⟩⟩
  | function | «break» | «continue» => simp

theorem seals_whileLaps {c : Expr} {b : Stmt} (hc : c.Closed globals known)
    (hb : b.Closed globals known) (fuel : Nat) :
    ∀ x ∈ Task.starts ⟨n, laps, .whileLaps c b fuel⟩,
      Leads (Private globals known) x (Begins (Task.Sealed globals)) := by
  cases fuel with
  | zero => simp
  | succ fuel =>
    have htest := leads_value n laps hc
    have hbody := (leads_signals .clearLoop).bind fun _ => seals n laps (a := .statement b) hb
    have hnext := (leads_lap n laps hb).bind fun again =>
      sealsIf n laps again (a := .whileLaps c b fuel) ⟨hc, hb⟩
    simpa using ⟨seals n laps hc, htest.bind fun _ => .beginsOrNone hbody,
      htest.bind fun _ => .beginsOrNone hnext⟩

theorem seals_doLaps {b : Stmt} {c : Expr} (hc : c.Closed globals known)
    (hb : b.Closed globals known) (fuel : Nat) :
    ∀ x ∈ Task.starts ⟨n, laps, .doLaps b c fuel⟩,
      Leads (Private globals known) x (Begins (Task.Sealed globals)) := by
  cases fuel with
  | zero => simp
  | succ fuel =>
    have hlap := leads_lap n laps hb
    have hnext := (leads_value n laps hc).bind fun v =>
      sealsIf n laps v.isTruthy (a := .doLaps b c fuel) ⟨hc, hb⟩
    simpa using ⟨(leads_signals .clearLoop).bind fun _ => seals n laps (a := .statement b) hb,
      hlap.bind fun again => sealsIf n laps again (a := .value c) hc,
      hlap.bind fun _ => .beginsOrNone hnext⟩

theorem seals_forLaps (range : LoopRange) {counter : String} {b : Stmt} (hc : counter ∈ known)
    (hb : b.Closed globals known) (count : Nat) (m : Int64) :
    ∀ x ∈ Task.starts ⟨n, laps, .forLaps range counter b count m⟩,
      Leads (Private globals known) x (Begins (Task.Sealed globals)) := by
  cases count with
  | zero => simp
  | succ count =>
    have hset : Leads (Private globals known) (setCounter counter m)
        fun _ => Private globals known := leads_obeys (obeys_setCounter hc m)
    simpa using ⟨
      hset.bind fun _ => (leads_signals .clearLoop).bind fun _ =>
        seals n laps (a := .statement b) hb,
      hset.bind fun _ => (leads_lap n laps hb).bind fun again =>
        sealsIf n laps again (a := .forLaps range counter b count (range.next m)) ⟨hc, hb⟩⟩

/-- The body of a call starts with its parameters and the globals known. -/
theorem seals_startBody (name : String) (vs : List Value) (position : Position) :
    Leads (Private globals known) (Task.startBody n name vs position)
      (Begins (Task.Sealed globals)) := by
  intro s o t hs ho
  obtain ⟨_, _, hg, ho⟩ := bind_ok.mp ho
  cases hg
  cases hf : s.functions.find? name with
  | none =>
    rw [hf] at ho
    cases ho
    exact nofun
  | some f =>
    rw [hf] at ho
    dsimp only at ho
    obtain ⟨hps, hbody⟩ := hs.functions name f hf
    split at ho
    · next hl =>
      obtain ⟨_, _, he, ho⟩ := bind_ok.mp ho
      cases he
      obtain ⟨u, hu, -, hprivate⟩ := private_bindParameters position hl hs.enterFrame hps
      obtain ⟨_, _, hb, ho⟩ := bind_ok.mp ho
      cases hu.symm.trans hb
      exact seals n n (a := .body f.body.body) hbody u o t hprivate ho
    · cases ho
      exact nofun

end

/-- What a closed task starts is closed where it starts. -/
theorem Task.Sealed.starts {t t' : Task} {s s' : Evaluation} (h : t.Sealed globals s)
    {x : Eval (Option Task)} (hx : x ∈ t.starts) (ho : x s = .ok (some t') s') :
    t'.Sealed globals s' := by
  obtain ⟨n, laps, a⟩ := t
  obtain ⟨known, hs, ha⟩ := h
  suffices h : ∀ x ∈ Task.starts ⟨n, laps, a⟩,
      Leads (Private globals known) x (Begins (Task.Sealed globals)) from
    h x hx s _ s' hs ho t' rfl
  cases a with
  | value e => exact seals_value n laps ha
  | values es =>
    cases es with
    | nil => simp
    | cons e es =>
      simpa using ⟨seals n laps ha.1,
        (leads_value n laps ha.1).bind fun _ => seals n laps (a := .values es) ha.2⟩
  | option e | step e =>
    cases e with
    | none => simp
    | some e => exact List.forall_mem_singleton.mpr (seals n laps (a := .value e) ha)
  | block body last => exact seals_block n laps ha last
  | bounds position e => exact seals_bounds n laps position ha
  | statement b => exact seals_statement n laps ha
  | alternative b =>
    cases b with
    | none => simp
    | some b => exact List.forall_mem_singleton.mpr (seals n laps (a := .statement b) ha)
  | body body =>
    cases body with
    | nil => simp
    | cons b rest =>
      simpa using ⟨seals n laps ha.1,
        (leads_behind n laps ha.1).bind fun _ => sealsNext n laps (a := .body rest) ha.2⟩
  | whileLaps c b fuel => exact seals_whileLaps n laps ha.1 ha.2 fuel
  | doLaps b c fuel => exact seals_doLaps n laps ha.1 ha.2 fuel
  | forLaps range counter b count m => exact seals_forLaps n laps range ha.1 ha.2 count m
  | call name vs position =>
    cases n with
    | zero => simp
    | succ n => exact List.forall_mem_singleton.mpr (seals_startBody n name vs position)

theorem Reaches.sealed {t t' : Task} {s s' : Evaluation} (hr : Reaches t s t' s')
    (h : t.Sealed globals s) : t'.Sealed globals s' := by
  induction hr with
  | self => exact h
  | start _ hx ho ih => exact ih.starts hx ho

/-- What a closed task uses is a variable of the running call, or a global. -/
theorem Task.Sealed.own {t : Task} {s u : Evaluation} {name : String} (h : t.Sealed globals s)
    (hu : t.Uses s name u) : u.Own name := by
  obtain ⟨known, hs, ht⟩ := h
  cases hu with
  | read => exact hs.names name ht
  | @step n laps _ operand _ _ _ _ hn he =>
    have hu := leads_value n laps (e := operand) ht s _ _ hs he
    exact hu.names name (Expr.Closed.of_ungroup (e := operand) ht hn)
  | assign hv =>
    exact (leads_obeys (obeys_evaluateOption (obeys_call _) _ _ ht.2) s _ _ hs hv).names name ht.1
  | count => exact hs.names name ht.1

/-- A call within a closed task changes the outermost scope only. -/
theorem Task.Sealed.detached {n laps : Nat} {name : String} {vs : List Value}
    {position : Position} {s : Evaluation}
    (h : Task.Sealed globals ⟨n, laps, .call name vs position⟩ s) : ∀ i, 0 < i → ∀ other,
      ((Eval.call n name vs position).after s).environment.bindingAt i other =
        s.environment.bindingAt i other := by
  obtain ⟨known, hs, -⟩ := h
  exact (detaches_call n known name vs position s hs).2

end

end Eval

/-! ## Programs -/

/-- Behind its first task, a run goes on from one that it starts. -/
theorem Eval.Reaches.started {t t' : Eval.Task} {s s' : Evaluation}
    (h : Eval.Reaches t s t' s') : (t' = t ∧ s' = s) ∨
      ∃ x ∈ t.starts, ∃ t₁ s₁, x s = .ok (some t₁) s₁ ∧ Eval.Reaches t₁ s₁ t' s' := by
  induction h with
  | self => exact .inl ⟨rfl, rfl⟩
  | start _ hx ho ih =>
    rcases ih with ⟨rfl, rfl⟩ | ⟨y, hy, t₁, s₁, h₁, hr⟩
    · exact .inr ⟨_, hx, _, _, ho, .self⟩
    · exact .inr ⟨y, hy, t₁, s₁, h₁, hr.start hx ho⟩

/-- No call runs and no scope is entered, and functions that are known are closed. -/
structure Evaluation.Outside (globals : Set String) (s : Evaluation) : Prop where
  depth : s.environment.depth = 1
  frameBase : s.frameBase = 0
  functions : ∀ name f, s.functions.find? name = some f → f.Closed globals

namespace Evaluation.Outside

variable {globals : Set String} {s t : Evaluation}

/-- Outside of calls all names are those of the top level. -/
theorem toPrivate (h : s.Outside globals) : s.Private globals Set.univ where
  framed := by
    unfold Framed
    rw [h.frameBase, h.depth]
    exact Nat.zero_lt_one
  names _ _ _ _ _ := .inr (by rw [h.frameBase]; exact Nat.zero_le _)
  outermost i hi name _ := s.environment.bindingAt_of_depth_le name (by rw [h.depth]; exact hi)
  functions := h.functions

theorem later (h : s.Outside globals) (hb : s.Balanced t) : t.Outside globals where
  depth := hb.depth.trans h.depth
  frameBase := hb.frameBase.trans h.frameBase
  functions := by rw [hb.functions]; exact h.functions

end Evaluation.Outside

namespace Eval

variable {globals : Set String}

theorem outside_registerAll : ∀ {fs : List Function}, (∀ f ∈ fs, f.Closed globals) →
    ∀ {s t : Evaluation}, s.Outside globals → registerAll fs s = .ok () t → t.Outside globals
  | [], _, s, t, hs, h => by
    cases h
    exact hs
  | f :: fs, hfs, s, t, hs, h => by
    obtain ⟨hf, hfs⟩ := List.forall_mem_cons.mp hfs
    obtain ⟨_, u, hr, h⟩ := bind_ok.mp h
    refine outside_registerAll hfs (s := u) ?_ h
    have hinsert : ∀ v : Evaluation, v.Outside globals →
        Outside globals { v with functions := v.functions.insert f.name f } := by
      refine fun v hv => ⟨hv.depth, hv.frameBase, fun name g hg => ?_⟩
      rw [NameMap.find?_insert] at hg
      split at hg
      · cases hg
        exact hf
      · exact hv.functions name g hg
    obtain ⟨_, _, hg, hr⟩ := bind_ok.mp hr
    cases hg
    dsimp only at hr
    split at hr
    · cases hr
      exact hinsert _ ⟨hs.depth, hs.frameBase, hs.functions⟩
    · cases hr
      exact hinsert s hs

theorem outside_runTopLevel (fuel : Nat) : ∀ {body : List Stmt} {s t : Evaluation},
    s.Outside globals → runTopLevel fuel body s = .ok () t → t.Outside globals
  | [], s, t, hs, h => by
    cases h
    exact hs
  | b :: rest, s, t, hs, h => by
    obtain ⟨_, u, hb, h⟩ := bind_ok.mp h
    obtain ⟨_, v, hv, h⟩ := bind_ok.mp h
    cases hv
    have hbalanced := (hs.toPrivate.framed.balanced fuel fuel).2.1 b
    rw [after_ok hb] at hbalanced
    have hu := hs.later hbalanced
    exact outside_runTopLevel fuel (s := { u with signals := .clear, returned := none })
      ⟨hu.depth, hu.frameBase, hu.functions⟩ h

end Eval

namespace Program

variable {globals : Set String} {p : Program} {fuel : Nat} {t t' : Eval.Task}
  {s s' u : Evaluation}

theorem Closed.outside (h : p.Closed globals) {body : List Stmt}
    (hrun : (do Eval.registerAll p.functions; Eval.runTopLevel fuel body) .new = .ok () s) :
    s.Outside globals := by
  obtain ⟨_, u, hu, hs⟩ := bind_ok.mp hrun
  have hnew : Evaluation.new.Outside globals := ⟨rfl, rfl, fun _ _ hf => nomatch hf⟩
  exact Eval.outside_runTopLevel fuel (Eval.outside_registerAll h.functions hnew hu) hs

/-- All that is run in a closed program is closed where it runs, but for declarations of the
top level. -/
theorem Closed.sealed (h : p.Closed globals) (hs : p.Starts fuel t s)
    (hr : Eval.Reaches t s t' s') : t'.Sealed globals s' ∨
      ∃ name constant type value span,
        t'.activity = .statement (.declare name constant type value span) := by
  cases hs with
  | @topLevel before rest b _ hsplit hrun =>
    have hprivate := (h.outside hrun).toPrivate
    have hb : b.ClosedOutside globals := h.topLevel b (by rw [hsplit]; simp)
    cases b with
    | declare name constant type value span =>
      rcases hr.started with ⟨rfl, rfl⟩ | ⟨x, hx, t₁, s₁, h₁, hr⟩
      · exact .inr ⟨name, constant, type, value, span, rfl⟩
      · obtain rfl := List.mem_singleton.mp hx
        cases h₁
        exact .inl (hr.sealed ⟨_, hprivate, hb⟩)
    | _ => exact .inl (hr.sealed ⟨_, hprivate, hb⟩)
  | main hrun => exact .inl (hr.sealed ⟨_, (h.outside hrun).toPrivate, trivial⟩)

/-- In a closed program, each name that is used means a variable of the running call or a
global, and a call leaves all scopes as they are but the outermost. -/
theorem Closed.resolves (h : p.Closed globals) (hs : p.Starts fuel t s)
    (hr : Eval.Reaches t s t' s') :
    (∀ name u, t'.Uses s' name u → u.Own name) ∧
      ∀ name vs position, t'.activity = .call name vs position → ∀ i, 0 < i → ∀ other,
        (t'.run.after s').environment.bindingAt i other = s'.environment.bindingAt i other := by
  obtain ⟨n, laps, a⟩ := t'
  rcases h.sealed hs hr with hsealed | ⟨_, _, _, _, _, rfl⟩
  · refine ⟨fun name u hu => hsealed.own hu, ?_⟩
    rintro name vs position rfl i hi other
    have hrun : (Eval.Task.run ⟨n, laps, .call name vs position⟩).after s' =
        (Eval.call n name vs position).after s' := Eval.after_discard _ s'
    rw [hrun]
    exact hsealed.detached i hi other
  · exact ⟨fun _ _ hu => (nomatch hu), fun _ _ _ ha => (nomatch ha)⟩

/-- A function that steps a global, called by one that has a variable of its own. -/
theorem Closed.resolves_global :
    let x : Expr := .unary (.step .postIncrement) (.name "x" default) default
    let p : Program := ⟨[.declare "x" false none (some (.integer 1 default)) default,
      .function ⟨"touch", [], .unit, ⟨[.expression x], default⟩, default⟩,
      .function ⟨"main", [], .unit, ⟨[
        .declare "y" false none (some (.integer 5 default)) default,
        .expression (.call "touch" [] default)], default⟩, default⟩], default⟩
    p.Closed {"x"} ∧ ∃ t s t' s', p.Starts 2 t s ∧ Eval.Reaches t s t' s' ∧
      ∃ u, t'.Uses s' "x" u ∧ u.Own "x" := by
  intro x p
  have h : p.Closed {"x"} := by
    constructor
    · intro f hf
      rcases List.mem_cons.mp hf with rfl | hf
      · exact ⟨nofun, Set.mem_singleton "x", trivial⟩
      · obtain rfl := List.mem_singleton.mp hf
        exact ⟨nofun, ⟨by simp, trivial⟩, trivial, trivial⟩
    · intro b hb
      obtain rfl := List.mem_singleton.mp hb
      trivial
  have hrun : ∃ t s t' s', p.Starts 2 t s ∧ Eval.Reaches t s t' s' ∧
      ∃ u, t'.Uses s' "x" u := by
    refine ⟨_, _, _, _, .main rfl rfl, .start (.start (.start (.start (.start (.start
      (.start (.start .self List.mem_cons_self rfl) (List.mem_cons_of_mem _ List.mem_cons_self) rfl)
        List.mem_cons_self rfl) List.mem_cons_self rfl)
          (List.mem_cons_of_mem _ List.mem_cons_self) rfl) List.mem_cons_self rfl)
            List.mem_cons_self rfl) List.mem_cons_self rfl, ?_⟩
    exact ⟨_, .step rfl rfl⟩
  obtain ⟨t, s, t', s', hs, hr, u, hu⟩ := hrun
  exact ⟨h, t, s, t', s', hs, hr, u, hu, (Program.Closed.resolves h hs hr).1 "x" u hu⟩

/-- A function that has no variable of the name reads its caller's, and sets it. -/
theorem own_lost_in_call :
    let p : Program := ⟨[.declare "x" false none (some (.integer 1 default)) default,
      .function ⟨"touch", [], .unit, ⟨[.print (some (.name "x" default)) false default,
        .assign "x" .set (some (.integer 7 default)) default], default⟩, default⟩,
      .function ⟨"main", [], .unit, ⟨[
        .declare "x" false none (some (.integer 5 default)) default,
        .expression (.call "touch" [] default),
        .print (some (.name "x" default)) true default], default⟩, default⟩], default⟩
    (∃ t s t' s' u, p.Starts 2 t s ∧ Eval.Reaches t s t' s' ∧ t'.Uses s' "x" u ∧ ¬ u.Own "x") ∧
      ∃ s, p.run 2 = .ok () s ∧ s.output = "57\n" := by
  intro p
  constructor
  · refine ⟨_, _, _, _, _, .main rfl rfl, .start (.start (.start (.start (.start (.start (.start
      (.start (.start .self List.mem_cons_self rfl) (List.mem_cons_of_mem _ List.mem_cons_self) rfl)
        List.mem_cons_self rfl) List.mem_cons_self rfl)
          (List.mem_cons_of_mem _ List.mem_cons_self) rfl) List.mem_cons_self rfl)
            List.mem_cons_self rfl) List.mem_cons_self rfl) List.mem_cons_self rfl,
              .read "x" default, ?_⟩
    intro h
    exact absurd (h 1 _ rfl) (by decide)
  · exact ⟨_, rfl, rfl⟩

end Program

end ScriptLang
