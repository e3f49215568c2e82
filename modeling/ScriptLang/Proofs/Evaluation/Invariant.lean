import ScriptLang.Proofs.Evaluation.Contract
import ScriptLang.Proofs.Evaluation.Reach

/-!
# Invariants of what is run

A set of states that nothing done under a contract leaves is not left between the
tasks of a run either: each task that is reached starts and ends in it. Where the
contract is one of some trees only, so is the set.
-/

namespace ScriptLang

namespace Eval

/-- The trees of an activity have the property, and there is the counter of a loop that
runs. -/
def Activity.Fits (p : NodeProperty) (c : String → Evaluation → Prop) (s : Evaluation) :
    Activity → Prop
  | .value e | .bounds _ e => p.InExpr e
  | .values es => p.InExprs es
  | .option e | .step e => p.InOption e
  | .block stmts _ | .body stmts => p.InStmts stmts
  | .statement b => p.InStmt b
  | .alternative b => p.InElse b
  | .whileLaps d b _ | .doLaps b d _ => p.InExpr d ∧ p.InStmt b
  | .forLaps _ counter b _ _ =>
    (∃ range span, p.stmt (.forLoop counter range b span)) ∧ p.InStmt b ∧ c counter s
  | .call .. => True

/-- What is started, if anything is, fits a state of the set. -/
def Started (p : NodeProperty) (i : Evaluation → Prop) (c : String → Evaluation → Prop)
    (o : Option Task) (s : Evaluation) : Prop :=
  ∀ t, o = some t → i s ∧ t.activity.Fits p c s

/-- What is started, if anything is, is as it should be in the state it starts in. -/
def Begins (q : Task → Evaluation → Prop) (o : Option Task) (s : Evaluation) : Prop :=
  ∀ t, o = some t → q t s

/-- Where it succeeds from a state of the set, the computation has such a result. -/
def Leads {α : Type} (i : Evaluation → Prop) (x : Eval α) (q : α → Evaluation → Prop) : Prop :=
  ∀ s a t, i s → x s = .ok a t → q a t

namespace Leads

variable {α β : Type} {i j : Evaluation → Prop} {x : Eval α} {f : α → Eval β}
  {q : α → Evaluation → Prop} {r : β → Evaluation → Prop} {b : Task → Evaluation → Prop}
  {p : NodeProperty} {c : String → Evaluation → Prop}

theorem pure {a : α} (h : ∀ s, i s → q a s) : Leads i (Pure.pure a : Eval α) q := by
  intro s b t hs hb
  cases hb
  exact h s hs

theorem get : Leads i (MonadState.get : Eval Evaluation) fun _ => i := by
  intro s b t hs hb
  cases hb
  exact hs

theorem modified {g : Evaluation → Evaluation} (hg : ∀ s, i s → j (g s)) :
    Leads i (modify g : Eval Unit) fun _ => j := by
  intro s b t hs hb
  cases hb
  exact hg s hs

theorem bind (hx : Leads i x fun _ => j) (hf : ∀ a, Leads j (f a) r) : Leads i (x >>= f) r := by
  intro s b u hs h
  obtain ⟨a, t, hxs, hfa⟩ := bind_ok.mp h
  exact hf a t b u (hx s a t hs hxs) hfa

theorem of_after (h : ∀ s, i s → j (x.after s)) : Leads i x fun _ => j := by
  intro s a t hs hx
  have hj := h s hs
  rwa [after_ok hx] at hj

theorem begins (nesting laps : Nat) {a : Activity} (h : ∀ s, i s → b ⟨nesting, laps, a⟩ s) :
    Leads i (Task.start nesting laps a) (Begins b) := by
  refine pure fun s hs t ht => ?_
  cases ht
  exact h s hs

theorem beginsIf (nesting laps : Nat) (condition : Bool) {a : Activity}
    (h : ∀ s, i s → b ⟨nesting, laps, a⟩ s) :
    Leads i (Task.startIf nesting laps condition a) (Begins b) := by
  unfold Task.startIf
  split
  · exact begins nesting laps h
  · exact pure fun s _ t ht => nomatch ht

theorem beginsNext (nesting laps : Nat) {a : Activity} (h : ∀ s, i s → b ⟨nesting, laps, a⟩ s) :
    Leads i (Task.proceed nesting laps a) (Begins b) :=
  bind get fun _ => beginsIf nesting laps _ h

/-- What is started on a condition, and otherwise not. -/
theorem beginsOrNone {condition : Bool} {x : Eval (Option Task)} (hx : Leads i x (Begins b)) :
    Leads i (if condition then x else Pure.pure none) (Begins b) := by
  split
  · exact hx
  · exact pure fun s _ t ht => nomatch ht

theorem start (nesting laps : Nat) {a : Activity} (h : ∀ s, i s → j s ∧ a.Fits p c s) :
    Leads i (Task.start nesting laps a) (Started p j c) :=
  begins (b := fun t s => j s ∧ t.activity.Fits p c s) nesting laps h

theorem startIf (nesting laps : Nat) (condition : Bool) {a : Activity}
    (h : ∀ s, i s → j s ∧ a.Fits p c s) :
    Leads i (Task.startIf nesting laps condition a) (Started p j c) :=
  beginsIf (b := fun t s => j s ∧ t.activity.Fits p c s) nesting laps condition h

theorem proceed (nesting laps : Nat) {a : Activity} (h : ∀ s, i s → j s ∧ a.Fits p c s) :
    Leads i (Task.proceed nesting laps a) (Started p j c) :=
  beginsNext (b := fun t s => j s ∧ t.activity.Fits p c s) nesting laps h

theorem orNone {condition : Bool} {x : Eval (Option Task)} (hx : Leads i x (Started p j c)) :
    Leads i (if condition then x else Pure.pure none) (Started p j c) :=
  beginsOrNone (b := fun t s => j s ∧ t.activity.Fits p c s) hx

end Leads

/-- A set of states that nothing done under a contract leaves, if the trees have the
property. Within a `for` more holds of its counter, however often its body is run. -/
structure Preserved (k : Contract) (p : NodeProperty) (i : Evaluation → Prop)
    (c : String → Evaluation → Prop) : Prop where
  governs : k.Governs p
  holds : ∀ s, i s → s.Holds p
  stmt : ∀ {s t}, k.onStmt s t → i s → i t
  scope : ∀ s, i s → i s.enterScope
  frame : ∀ s, i s → i s.enterFrame
  enterFor : ∀ range counter s, i s →
    i ((enterFor range counter).after s) ∧ c counter ((enterFor range counter).after s)
  setCounter : ∀ counter n s, i s → c counter s →
    i ((setCounter counter n).after s) ∧ c counter ((setCounter counter n).after s)
  signal : ∀ counter s signals returned, c counter s → c counter { s with signals, returned }
  body : ∀ n laps counter range body span, p.stmt (.forLoop counter range body span) →
    p.InStmt body → ∀ s, i s → c counter s →
    c counter ((execute (Eval.call n) laps body).after s)

namespace Preserved

variable {α : Type} {k : Contract} {p : NodeProperty} {i : Evaluation → Prop}
  {c : String → Evaluation → Prop} (h : Preserved k p i c) (n laps : Nat)

include h

theorem keeps_evaluate {e : Expr} (he : p.InExpr e) :
    Keeps k.onExpr (evaluate (Eval.call n) laps e) :=
  h.governs.evaluate (h.governs.call n) laps e he

theorem keeps_execute {b : Stmt} (hb : p.InStmt b) :
    Keeps k.onStmt (execute (Eval.call n) laps b) :=
  h.governs.execute (h.governs.call n) laps b hb

theorem leads_stmt {x : Eval α} (hx : Keeps k.onStmt x) : Leads i x fun _ => i :=
  Leads.of_after fun s hs => h.stmt (hx s) hs

theorem leads_expr {x : Eval α} (hx : Keeps k.onExpr x) : Leads i x fun _ => i :=
  h.leads_stmt (hx.weaken h.governs.weaken)

theorem leads_evaluate {e : Expr} (he : p.InExpr e) :
    Leads i (evaluate (Eval.call n) laps e) fun _ => i := h.leads_expr (h.keeps_evaluate n laps he)

theorem leads_execute {b : Stmt} (hb : p.InStmt b) :
    Leads i (execute (Eval.call n) laps b) fun _ => i := h.leads_stmt (h.keeps_execute n laps hb)

theorem leads_lap {b : Stmt} (hb : p.InStmt b) :
    Leads i (lap (execute (Eval.call n) laps b)) fun _ => i :=
  h.leads_stmt (Keeps.lap h.governs.stmt (h.keeps_execute n laps hb))

theorem leads_clearLoop : Leads i (modifySignals .clearLoop) fun _ => i :=
  h.leads_stmt (Keeps.modifySignals h.governs.stmt Signals.clearLoop)

theorem leads_bound {e : Expr} (he : p.InExpr e) (position : Position) {f : Int64 → Eval α}
    {q : α → Evaluation → Prop} (hf : ∀ m, Leads i (f m) q) :
    Leads i (evaluate (Eval.call n) laps e >>= fun v => toBound v position >>= f) q :=
  Leads.bind (h.leads_evaluate n laps he) fun v =>
    Leads.bind (h.leads_expr (Keeps.toBound h.governs.expr v position)) hf

theorem leads_enterScope : Leads i enterScope fun _ => i := Leads.modified h.scope

theorem leads_startBody (name : String) (vs : List Value) (position : Position) :
    Leads i (Task.startBody n name vs position) (Started p i c) := by
  intro s o t hs ho
  obtain ⟨_, _, hg, ho⟩ := bind_ok.mp ho
  cases hg
  cases hf : s.functions.find? name with
  | none =>
    rw [hf] at ho
    cases ho
    exact nofun
  | some f =>
    rw [hf] at ho
    dsimp only at ho
    have hbody : p.InStmts f.body.body := h.holds s hs name f hf
    have henter : Leads i enterFrame fun _ => i := Leads.modified h.frame
    have hbind := h.leads_stmt (h.governs.parameters f.parameters vs position)
    have hrun : Leads i _ (Started p i c) :=
      Leads.start (a := .body f.body.body) n n fun _ hs => ⟨hs, hbody⟩
    split at ho
    · exact henter.bind (fun _ => hbind.bind fun _ => hrun) s o t hs ho
    · cases ho
      exact nofun

theorem leads_value {e : Expr} (he : p.InExpr e) :
    ∀ x ∈ Task.starts ⟨n, laps, .value e⟩, Leads i x (Started p i c) := by
  cases e with
  | group inner => exact List.forall_mem_singleton.mpr (Leads.start n laps fun _ hs => ⟨hs, he.2⟩)
  | binary o l r =>
    simpa using ⟨Leads.start n laps fun _ hs => ⟨hs, he.2.1⟩,
      (h.leads_evaluate n laps he.2.1).bind fun _ => Leads.start n laps fun _ hs => ⟨hs, he.2.2⟩⟩
  | unary o e => exact List.forall_mem_singleton.mpr (Leads.start n laps fun _ hs => ⟨hs, he.2⟩)
  | call f es =>
    have hes := h.leads_expr (h.governs.evaluateAll (h.governs.call n) laps es he.2)
    simpa using ⟨Leads.start n laps fun _ hs => ⟨hs, he.2⟩,
      hes.bind fun _ => Leads.start n laps fun _ hs => ⟨hs, trivial⟩⟩
  | range a b =>
    simpa using ⟨Leads.start n laps fun _ hs => ⟨hs, he.2.1⟩,
      h.leads_bound n laps he.2.1 _ fun _ => Leads.start n laps fun _ hs => ⟨hs, he.2.2.1⟩⟩
  | run b =>
    obtain ⟨body, _⟩ := b
    exact List.forall_mem_singleton.mpr
      (h.leads_enterScope.bind fun _ => Leads.start n laps fun _ hs => ⟨hs, he.2⟩)
  | _ => simp

theorem leads_block {body : List Stmt} (hb : p.InStmts body) (last : Value) :
    ∀ x ∈ Task.starts ⟨n, laps, .block body last⟩, Leads i x (Started p i c) := by
  cases body with
  | nil => simp
  | cons s rest =>
    have hrest (v : Value) : ∀ s, i s → i s ∧ (Activity.block rest v).Fits p c s :=
      fun _ hs => ⟨hs, hb.2⟩
    have hs : Leads i (execute (Eval.call n) laps s) fun _ => i := h.leads_execute n laps hb.1
    cases s with
    | expression e =>
      simpa using ⟨Leads.start n laps fun _ hs => ⟨hs, hb.1.2⟩,
        (h.leads_evaluate n laps hb.1.2).bind fun v => Leads.proceed n laps (hrest v)⟩
    | _ =>
      simpa using ⟨Leads.start n laps fun _ hs => ⟨hs, hb.1⟩,
        hs.bind fun _ => Leads.proceed n laps (hrest _)⟩

theorem leads_bounds (position : Position) {e : Expr} (he : p.InExpr e) :
    ∀ x ∈ Task.starts ⟨n, laps, .bounds position e⟩, Leads i x (Started p i c) := by
  cases e with
  | group inner => exact List.forall_mem_singleton.mpr (Leads.start n laps fun _ hs => ⟨hs, he.2⟩)
  | range a b x d step =>
    simpa using ⟨Leads.start n laps fun _ hs => ⟨hs, he.2.1⟩,
      h.leads_bound n laps he.2.1 _ fun _ => Leads.start n laps fun _ hs => ⟨hs, he.2.2.1⟩,
      h.leads_bound n laps he.2.1 _ fun _ => h.leads_bound n laps he.2.2.1 _ fun _ =>
        Leads.start n laps fun _ hs => ⟨hs, he.2.2.2⟩⟩
  | _ => simp

theorem leads_statement {b : Stmt} (hb : p.InStmt b) :
    ∀ x ∈ Task.starts ⟨n, laps, .statement b⟩, Leads i x (Started p i c) := by
  cases b with
  | expression | declare | assign | print | «return» =>
    exact List.forall_mem_singleton.mpr (Leads.start n laps fun _ hs => ⟨hs, hb.2⟩)
  | block b =>
    obtain ⟨body, _⟩ := b
    exact List.forall_mem_singleton.mpr
      (h.leads_enterScope.bind fun _ => Leads.start n laps fun _ hs => ⟨hs, hb.2⟩)
  | branch d a b =>
    have hab : ∀ v : Value, Leads i (if v.isTruthy then Task.start n laps (.statement a)
        else Task.start n laps (.alternative b)) (Started p i c) := by
      intro v
      split
      · exact Leads.start n laps fun _ hs => ⟨hs, hb.2.2.1⟩
      · exact Leads.start n laps fun _ hs => ⟨hs, hb.2.2.2⟩
    simpa using ⟨Leads.start n laps fun _ hs => ⟨hs, hb.2.1⟩,
      (h.leads_evaluate n laps hb.2.1).bind hab⟩
  | whileLoop =>
    exact List.forall_mem_singleton.mpr (Leads.start n laps fun _ hs => ⟨hs, hb.2⟩)
  | doWhile =>
    exact List.forall_mem_singleton.mpr
      (Leads.start n laps fun _ hs => ⟨hs, hb.2.2, hb.2.1⟩)
  | forLoop counter range body =>
    have hr := h.leads_expr
      (h.governs.loopRange (h.governs.call n) laps range.span.start range hb.2.1)
    have hc (bounds : LoopRange) : Leads i (Eval.enterFor bounds counter)
        fun _ s => i s ∧ c counter s := Leads.of_after (h.enterFor bounds counter)
    simpa using ⟨Leads.start n laps fun _ hs => ⟨hs, hb.2.1⟩, hr.bind fun bounds =>
      (hc bounds).bind fun _ => Leads.start n laps fun _ hs =>
        ⟨hs.1, ⟨range, _, hb.1⟩, hb.2.2, hs.2⟩⟩
  | function | «break» | «continue» => simp

theorem leads_whileLaps {d : Expr} {b : Stmt} (hd : p.InExpr d) (hb : p.InStmt b) (fuel : Nat) :
    ∀ x ∈ Task.starts ⟨n, laps, .whileLaps d b fuel⟩, Leads i x (Started p i c) := by
  cases fuel with
  | zero => simp
  | succ fuel =>
    have hc := h.leads_evaluate n laps hd
    have hbody : Leads i _ (Started p i c) := h.leads_clearLoop.bind fun _ =>
      Leads.start (a := .statement b) n laps fun _ hs => ⟨hs, hb⟩
    have hnext : Leads i _ (Started p i c) := (h.leads_lap n laps hb).bind fun again =>
      Leads.startIf (a := .whileLaps d b fuel) n laps again fun _ hs => ⟨hs, hd, hb⟩
    simpa using ⟨Leads.start n laps fun _ hs => ⟨hs, hd⟩, hc.bind fun _ => hbody.orNone,
      hc.bind fun _ => hnext.orNone⟩

theorem leads_doLaps {b : Stmt} {d : Expr} (hb : p.InStmt b) (hd : p.InExpr d) (fuel : Nat) :
    ∀ x ∈ Task.starts ⟨n, laps, .doLaps b d fuel⟩, Leads i x (Started p i c) := by
  cases fuel with
  | zero => simp
  | succ fuel =>
    have hlap := h.leads_lap n laps hb
    have hnext : Leads i _ (Started p i c) := (h.leads_evaluate n laps hd).bind fun v =>
      Leads.startIf (a := .doLaps b d fuel) n laps v.isTruthy fun _ hs => ⟨hs, hd, hb⟩
    simpa using ⟨h.leads_clearLoop.bind fun _ => Leads.start n laps fun _ hs => ⟨hs, hb⟩,
      hlap.bind fun again => Leads.startIf n laps again fun _ hs => ⟨hs, hd⟩,
      hlap.bind fun _ => hnext.orNone⟩

/-- Laps keep the set, and what holds of the counter. -/
theorem keeps_counter {counter : String} {range : Expr} {b : Stmt} {span : Span}
    (hs : p.stmt (.forLoop counter range b span)) (hb : p.InStmt b) :
    Keeps (fun s t => i s → c counter s → i t ∧ c counter t)
      (execute (Eval.call n) laps b) := fun s hi hc =>
  ⟨h.stmt (h.keeps_execute n laps hb s) hi, h.body n laps counter range b span hs hb s hi hc⟩

theorem signalling_counter (counter : String) :
    Signalling fun s t => i s → c counter s → i t ∧ c counter t where
  refl := fun _ hi hc => ⟨hi, hc⟩
  trans := fun h h' hi hc => h' (h hi hc).1 (h hi hc).2
  signal := fun s signals returned hi hc =>
    ⟨h.stmt (h.governs.stmt.signal s signals returned) hi, h.signal counter s signals returned hc⟩

theorem leads_forLaps (range : LoopRange) {counter : String} {e : Expr} {b : Stmt} {span : Span}
    (hb : p.stmt (.forLoop counter e b span)) (hbody : p.InStmt b) (count : Nat) (m : Int64) :
    ∀ x ∈ Task.starts ⟨n, laps, .forLaps range counter b count m⟩,
      Leads (fun s => i s ∧ c counter s) x (Started p i c) := by
  cases count with
  | zero => simp
  | succ count =>
    have hr := h.signalling_counter counter
    have hset : Leads (fun s => i s ∧ c counter s) (Eval.setCounter counter m)
        fun _ s => i s ∧ c counter s :=
      Leads.of_after fun s hs => h.setCounter counter m s hs.1 hs.2
    have hclear : Leads (fun s => i s ∧ c counter s) (modifySignals .clearLoop)
        fun _ s => i s ∧ c counter s :=
      Leads.of_after fun s hs => Keeps.modifySignals hr Signals.clearLoop s hs.1 hs.2
    have hlap : Leads (fun s => i s ∧ c counter s) (lap (execute (Eval.call n) laps b))
        fun _ s => i s ∧ c counter s :=
      Leads.of_after fun s hs => Keeps.lap hr (h.keeps_counter n laps hb hbody) s hs.1 hs.2
    simpa using ⟨
      hset.bind fun _ => hclear.bind fun _ => Leads.start n laps fun _ hs => ⟨hs.1, hbody⟩,
      hset.bind fun _ => hlap.bind fun again =>
        Leads.startIf n laps again fun _ hs => ⟨hs.1, ⟨e, span, hb⟩, hbody, hs.2⟩⟩

/-- What is started from a state of the set fits such a state. -/
theorem leads_starts (t : Task) {s : Evaluation} (hs : i s) (ht : t.activity.Fits p c s) :
    ∀ x ∈ t.starts, ∀ o u, x s = .ok o u → Started p i c o u := by
  obtain ⟨n, laps, a⟩ := t
  suffices h : ∃ j, j s ∧ ∀ x ∈ Task.starts ⟨n, laps, a⟩, Leads j x (Started p i c) by
    obtain ⟨j, hj, h⟩ := h
    exact fun x hx o u ho => h x hx s o u hj ho
  cases a with
  | value e => exact ⟨i, hs, h.leads_value n laps ht⟩
  | values es =>
    cases es with
    | nil => exact ⟨i, hs, by simp⟩
    | cons e es =>
      exact ⟨i, hs, by simpa using ⟨Leads.start n laps fun _ hs => ⟨hs, ht.1⟩,
        (h.leads_evaluate n laps ht.1).bind fun _ => Leads.start n laps fun _ hs => ⟨hs, ht.2⟩⟩⟩
  | option e | step e =>
    cases e with
    | none => exact ⟨i, hs, by simp⟩
    | some e =>
      exact ⟨i, hs, List.forall_mem_singleton.mpr
        (Leads.start (a := .value e) n laps fun _ hs => ⟨hs, ht⟩)⟩
  | block body last => exact ⟨i, hs, h.leads_block n laps ht last⟩
  | bounds position e => exact ⟨i, hs, h.leads_bounds n laps position ht⟩
  | statement b => exact ⟨i, hs, h.leads_statement n laps ht⟩
  | alternative b =>
    cases b with
    | none => exact ⟨i, hs, by simp⟩
    | some b =>
      exact ⟨i, hs, List.forall_mem_singleton.mpr
        (Leads.start (a := .statement b) n laps fun _ hs => ⟨hs, ht⟩)⟩
  | body body =>
    cases body with
    | nil => exact ⟨i, hs, by simp⟩
    | cons b rest =>
      exact ⟨i, hs, by simpa using ⟨Leads.start n laps fun _ hs => ⟨hs, ht.1⟩,
        (h.leads_execute n laps ht.1).bind fun _ => Leads.proceed n laps fun _ hs => ⟨hs, ht.2⟩⟩⟩
  | whileLaps d b fuel => exact ⟨i, hs, h.leads_whileLaps n laps ht.1 ht.2 fuel⟩
  | doLaps b d fuel => exact ⟨i, hs, h.leads_doLaps n laps ht.2 ht.1 fuel⟩
  | forLaps range counter b count m =>
    obtain ⟨⟨e, span, hb⟩, hbody, hc⟩ := ht
    exact ⟨_, ⟨hs, hc⟩, h.leads_forLaps n laps range hb hbody count m⟩
  | call name vs position =>
    cases n with
    | zero => exact ⟨i, hs, by simp⟩
    | succ n => exact ⟨i, hs, List.forall_mem_singleton.mpr (h.leads_startBody n name vs position)⟩

theorem after_expr {x : Eval α} (hx : Keeps k.onExpr x) {s : Evaluation} (hs : i s) :
    i ((do let _ ← x : Eval Unit).after s) :=
  h.stmt (h.governs.weaken (Keeps.bind h.governs.expr.toComposes hx
    (fun _ => Keeps.pure h.governs.expr.toComposes ()) s)) hs

/-- What fits a state of the set ends in the set, however it ends. -/
theorem after_run (t : Task) {s : Evaluation} (hs : i s) (ht : t.activity.Fits p c s) :
    i (t.run.after s) := by
  obtain ⟨n, laps, a⟩ := t
  have hc := h.governs.call n
  have htest {d : Expr} (hd : p.InExpr d) :
      Keeps k.onStmt (Value.isTruthy <$> evaluate (Eval.call n) laps d) :=
    Keeps.weaken h.governs.weaken
      (Keeps.map h.governs.expr.toComposes (h.keeps_evaluate n laps hd) _)
  cases a with
  | value e => exact h.after_expr (h.keeps_evaluate n laps ht) hs
  | values es => exact h.after_expr (h.governs.evaluateAll hc laps es ht) hs
  | option e => exact h.after_expr (h.governs.evaluateOption hc laps e ht) hs
  | block body last =>
    exact h.stmt (Keeps.bind h.governs.stmt.toComposes
      (h.governs.evaluateBlock hc laps body ht last)
      (fun _ => Keeps.pure h.governs.stmt.toComposes ()) s) hs
  | bounds position e => exact h.after_expr (h.governs.loopRange hc laps position e ht) hs
  | step e => exact h.after_expr (h.governs.loopStep hc laps e ht) hs
  | statement b => exact h.stmt (h.keeps_execute n laps ht s) hs
  | alternative b => exact h.stmt (h.governs.executeOption hc laps b ht s) hs
  | body body => exact h.stmt (h.governs.executeAll hc laps body ht s) hs
  | whileLaps d b fuel =>
    exact h.stmt (Keeps.whileLoop h.governs.stmt (h.keeps_execute n laps ht.2) (htest ht.1)
      fuel s) hs
  | doLaps b d fuel =>
    exact h.stmt (Keeps.doWhile h.governs.stmt (h.keeps_execute n laps ht.2) (htest ht.1)
      fuel s) hs
  | forLaps range counter b count m =>
    obtain ⟨⟨e, span, hb⟩, hbody, hcounter⟩ := ht
    have hset (m : Int64) : Keeps (fun s t => i s → c counter s → i t ∧ c counter t)
        (Eval.setCounter counter m) := fun s => h.setCounter counter m s
    exact (Keeps.forLoop (h.signalling_counter counter) (h.keeps_counter n laps hb hbody) hset
      range count m s hs hcounter).1
  | call name vs position => exact h.after_expr (hc name vs position) hs

end Preserved

/-- All that is ever run in the run of a task fits the state it starts in, which is one
of the set. -/
theorem Reaches.preserved {k : Contract} {p : NodeProperty} {i : Evaluation → Prop}
    {c : String → Evaluation → Prop} {t t' : Task} {s s' : Evaluation} (hr : Reaches t s t' s')
    (h : Preserved k p i c) (hs : i s) (ht : t.activity.Fits p c s) :
    i s' ∧ t'.activity.Fits p c s' := by
  induction hr with
  | self => exact ⟨hs, ht⟩
  | start _ hx ho ih => exact h.leads_starts _ ih.1 ih.2 _ hx _ _ ho _ rfl

/-! ## Invariants of all runs -/

/-- A set of states that nothing done under a contract leaves. -/
structure Invariant (k : Contract) (i : Evaluation → Prop) : Prop where
  lawful : k.Lawful
  stmt : ∀ {s t}, k.onStmt s t → i s → i t
  scope : ∀ s, i s → i s.enterScope
  frame : ∀ s, i s → i s.enterFrame

theorem after_enterFor (range : LoopRange) (counter : String) (s : Evaluation) :
    (enterFor range counter).after s = if reusesCounter s counter then s else
      { s.enterScope with environment :=
        s.enterScope.environment.declare counter (.integer range.start) .int true } := by
  have h : enterFor range counter s = (if reusesCounter s counter then Pure.pure () else do
      enterScope
      modifyEnvironment fun e => e.declare counter (.integer range.start) .int true :
      Eval Unit) s := rfl
  rw [after, h]
  cases reusesCounter s counter <;> rfl

theorem Invariant.preserved {k : Contract} {i : Evaluation → Prop} (h : Invariant k i) :
    Preserved k .any i fun _ _ => True where
  governs := governs_any h.lawful
  holds := fun _ _ _ f _ => NodeProperty.any_inStmts f.body.body
  stmt := h.stmt
  scope := h.scope
  frame := h.frame
  enterFor := fun range counter s hs => by
    rw [after_enterFor]
    refine ⟨?_, trivial⟩
    split
    · exact hs
    · exact h.stmt (h.lawful.declare s.enterScope counter _ _ _) (h.scope s hs)
  setCounter := fun counter n s hs _ =>
    ⟨h.stmt (h.lawful.weaken (keeps_setCounter h.lawful counter n s)) hs, trivial⟩
  signal := fun _ _ _ _ _ => trivial
  body := fun _ _ _ _ _ _ _ _ _ _ _ => trivial

theorem Activity.fits_any (s : Evaluation) (a : Activity) : a.Fits .any (fun _ _ => True) s := by
  cases a with
  | value e | bounds _ e => exact NodeProperty.any_inExpr e
  | values es => exact NodeProperty.any_inExprs es
  | option e | step e => exact NodeProperty.any_inOption e
  | block stmts _ | body stmts => exact NodeProperty.any_inStmts stmts
  | statement b => exact NodeProperty.any_inStmt b
  | alternative b => exact NodeProperty.any_inElse b
  | whileLaps d b _ | doLaps b d _ => exact ⟨NodeProperty.any_inExpr d, NodeProperty.any_inStmt b⟩
  | forLaps _ _ b _ _ =>
    exact ⟨⟨.integer 0 default, default, trivial⟩, NodeProperty.any_inStmt b, trivial⟩
  | call => exact trivial

/-- All that is ever run in the run of a task starts within the set. -/
theorem Reaches.invariant {k : Contract} {i : Evaluation → Prop} {t t' : Task}
    {s s' : Evaluation} (hr : Reaches t s t' s') (h : Invariant k i) (h₀ : i s) : i s' :=
  (hr.preserved h.preserved h₀ (Activity.fits_any s t.activity)).1

end Eval

end ScriptLang
