import ScriptLang.Proofs.Codegen.Statement
import ScriptLang.Proofs.Codegen.Linking
import ScriptLang.Proofs.Tree.WellFormed

/-!
# Code for every well-formed program

Generation reports what it cannot make sense of, and goes on. Two things stop it: a
program without `main`, and a `for` over no range. In a well-formed program only the
first can happen, and it depends on the names of the functions alone. What is reported is
said of the start of a node.
-/

namespace ScriptLang

/-- All that was reported is where a property of positions holds. -/
def Generator.Placed (P : Position → Prop) (g : Generator) : Prop :=
  ∀ f ∈ g.diagnostics, P f.position

namespace Gen

open Assembly

variable {α β : Type} {P : Position → Prop}

/-- Whatever the state, the computation gives a result, and reports nothing but where the
property holds. -/
def Total (P : Position → Prop) (x : Gen α) : Prop :=
  ∀ g : Generator, g.Placed P → ∃ a g', x g = .ok a g' ∧ g'.Placed P

namespace Total

variable {x : Gen α}

theorem pure (a : α) : Total P (Pure.pure a : Gen α) := fun g hg => ⟨a, g, rfl, hg⟩

theorem bind {f : α → Gen β} (hx : Total P x) (hf : ∀ a, Total P (f a)) :
    Total P (x >>= f) := by
  intro g hg
  obtain ⟨a, g', hx, hg'⟩ := hx g hg
  obtain ⟨b, g'', hf, hg''⟩ := hf a g' hg'
  exact ⟨b, g'', by rw [bind_of_ok f hx, hf], hg''⟩

theorem map (hx : Total P x) (f : α → β) : Total P (f <$> x) := by
  rw [map_eq_pure_bind]
  exact bind hx fun _ => pure _

theorem get_bind {f : Generator → Gen β} (hf : ∀ g, Total P (f g)) : Total P (get >>= f) :=
  fun g hg => hf g g hg

theorem modified {f : Generator → Generator} (h : ∀ g, (f g).diagnostics = g.diagnostics) :
    Total P (modify f : Gen Unit) := fun g hg => ⟨(), f g, rfl, by
  rw [Generator.Placed, h]
  exact hg⟩

theorem ite {c : Prop} [Decidable c] {y : Gen α} (hx : Total P x) (hy : Total P y) :
    Total P (if c then x else y) := by
  split
  · exact hx
  · exact hy

/-- What yields its faults at one position reports there. -/
theorem of_yields {p : α → Prop} {position : Position} (hp : P position)
    {o : Generator → Option Cause}
    (h : ∀ g, Yields p (faultsAt (o g) position) x g) : Total P x := by
  intro g hg
  obtain ⟨a, g', hx, -, hadds⟩ := h g
  refine ⟨a, g', hx, ?_⟩
  rw [Generator.Placed, hadds.diagnostics]
  refine List.forall_mem_append.mpr ⟨hg, fun f hf => ?_⟩
  obtain ⟨cause, -, rfl⟩ := List.mem_map.mp hf
  exact hp

theorem of_quiet (h : Quiet x) : Total P x := by
  intro g hg
  obtain ⟨a, g', hx, -, hadds⟩ := h g
  refine ⟨a, g', hx, ?_⟩
  rw [Generator.Placed, hadds.diagnostics, List.append_nil]
  exact hg

/-! ## Operations -/

theorem emit (code : List Instruction) : Total P (Gen.emit code) := of_quiet (quiet_emit code)

theorem declare (name : String) (type : ValueType) (mutable : Bool) :
    Total P (Gen.declare name type mutable) := fun _ hg => ⟨_, _, rfl, hg⟩

theorem spill (type : ValueType) : Total P (Gen.spill type) := of_quiet (quiet_spill type)

theorem nextLabel : Total P Gen.nextLabel := of_quiet quiet_nextLabel

theorem emitZero (type : ValueType) : Total P (Gen.emitZero type) :=
  of_quiet (quiet_emitZero type)

theorem inScope (hx : Total P x) : Total P (Gen.inScope x) :=
  bind (modified fun _ => rfl) fun _ => bind hx fun a =>
    bind (modified fun _ => rfl) fun _ => pure a

theorem inLoop {x : Gen Unit} (labels : LoopLabels) (hx : Total P x) :
    Total P (Gen.inLoop labels x) :=
  bind (modified fun _ => rfl) fun _ => bind hx fun _ => modified fun _ => rfl

theorem emitPrint (type : ValueType) (newline : Bool) : Total P (Gen.emitPrint type newline) := by
  have hend : Total P (Gen.emit [.callLibrary .printf]) := emit _
  cases type with
  | boolean | string =>
    exact bind (of_quiet (quiet_emitText _)) fun _ => bind (emit _) fun _ => hend
  | _ => exact bind (emit _) fun _ => hend

theorem emitLoopJump (target : LoopLabels → Label) : Total P (Gen.emitLoopJump target) := by
  refine get_bind fun g => ?_
  cases g.loops with
  | cons labels _ => exact emit _
  | nil =>
    cases g.topLevelExit with
    | some exit => exact emit _
    | none => exact bind (emitZero _) fun _ => emit _

theorem withCounter (counter : String) {body : Slot → Gen Unit}
    (hb : ∀ slot, Total P (body slot)) : Total P (Gen.withCounter counter body) := by
  have hfresh : Total P (Gen.inScope do body (← Gen.declare counter .integer true)) :=
    inScope (bind (declare counter .integer true) hb)
  refine get_bind fun g => ?_
  split
  · exact ite (hb _) hfresh
  · exact hfresh

theorem emitLaps (number : Nat) (slots : LoopSlots) {body : Gen Unit} (hb : Total P body)
    (copy : Slot) : Total P (Gen.emitLaps number slots body copy) :=
  bind (emit _) fun _ => bind (inLoop _ hb) fun _ => emit _

theorem emitStepCheck : Total P Gen.emitStepCheck := bind (emit _) fun _ => spill .integer

section

variable {position : Position} (hp : P position)

include hp

theorem report (cause : Cause) : Total P (Gen.report cause position) :=
  of_yields (o := fun _ => some cause) hp (yields_report cause position)

theorem emitCoercion (source target : ValueType) :
    Total P (Gen.emitCoercion source target position) :=
  of_yields hp (yields_emitCoercion source target position)

theorem emitBinary (operator : BinaryOperator) (left : Slot) (right : ValueType) :
    Total P (Gen.emitBinary operator left right position) :=
  of_yields hp (yields_emitBinary operator left right position)

theorem emitUnary (operator : UnaryOperator) (operand : ValueType) :
    Total P (Gen.emitUnary operator operand position) :=
  of_yields hp (yields_emitUnary operator operand position)

theorem emitStep (name : String) (slot : Slot) (increment : Bool) :
    Total P (Gen.emitStep name slot increment position) :=
  of_yields hp (yields_emitStep name slot increment position)

/-- A name that means nothing gets a slot. -/
theorem resolve (name : String) : Total P (Gen.resolve name position) := by
  refine get_bind fun g => ?_
  split
  · exact pure _
  · exact bind (report hp _) fun _ => bind (declare _ _ _) fun slot =>
      bind (emit _) fun _ => pure slot

theorem emitStepValue (step : Step) (name : String) :
    Total P (Gen.emitStepValue step name position) := by
  refine bind (resolve hp name) fun slot => bind (emit _) fun _ =>
    bind (emitStep hp name slot _) fun _ => ?_
  split
  · split
    · exact bind (emit _) fun _ => pure _
    · exact bind (emit _) fun _ => pure _
    · exact bind (pure _) fun _ => pure _
  · exact pure _

theorem emitFailedCall (cause : Cause) (type : ValueType) :
    Total P (Gen.emitFailedCall cause type position) :=
  bind (report hp cause) fun _ => bind (emitZero type) fun _ => pure type

theorem emitDeclaration (cell : Option Slot) (name : String) (constant : Bool)
    (type : Option DeclaredType) (value : Option ValueType) :
    Total P (Gen.emitDeclaration cell name constant type value position) := by
  have hcoerce : ∀ (v : ValueType) (slot : Slot), Total P (do
      Gen.emitCoercion v slot.type position
      Gen.emit slot.storeCode) := fun v slot => bind (emitCoercion hp _ _) fun _ => emit _
  have hzero : ∀ slot : Slot, Total P (do
      Gen.emitZero slot.type
      Gen.emit slot.storeCode) := fun slot => bind (emitZero _) fun _ => emit _
  cases cell with
  | some slot =>
    refine bind (modified fun _ => rfl) fun _ => bind (pure slot) ?_
    cases value with
    | some v => exact hcoerce v
    | none => exact hzero
  | none =>
    refine bind (declare name _ _) ?_
    cases value with
    | some v => exact hcoerce v
    | none => exact hzero

theorem emitAssignment (target : String) (operator : AssignOperator)
    (value : Option ValueType) :
    Total P (Gen.emitAssignment target operator value position) := by
  refine get_bind fun g => ?_
  cases g.find? target with
  | none => exact report hp _
  | some slot =>
    have hstore : ∀ type, Total P (do
        Gen.emitCoercion type slot.type position
        Gen.emit slot.storeCode) := fun type =>
      bind (emitCoercion hp _ _) fun _ => emit _
    cases operator with
    | step step => exact bind (emit _) fun _ => emitStep hp target slot _
    | set => exact ite (hstore _) (report hp _)
    | combine o =>
      exact ite (bind (spill _) fun right => bind (emit _) fun _ => bind (spill _) fun left =>
        bind (emit _) fun _ => bind (emitBinary hp _ left _) hstore) (report hp _)

end

theorem emitReturn {value : Option (ValueType × Position)} (hv : ∀ v ∈ value, P v.2) :
    Total P (Gen.emitReturn value) := by
  refine get_bind fun g => ?_
  cases g.topLevelExit with
  | some exit => exact emit _
  | none =>
    cases value with
    | none => exact bind (emitZero _) fun _ => emit _
    | some v =>
      exact ite (bind (emitZero _) fun _ => emit _)
        (bind (emitCoercion (hv v rfl) _ _) fun _ => emit _)

/-! ## Trees -/

mutual

theorem expression : ∀ e : Expr, (wellPlaced P).InExpr e → Total P (Gen.expression e)
  | .integer .., _ => bind (emit _) fun _ => pure _
  | .float .., _ =>
    bind (of_quiet (quiet_internFloat _)) fun _ => bind (emit _) fun _ => pure _
  | .boolean .., _ => bind (emit _) fun _ => pure _
  | .string .., _ =>
    bind (of_quiet (quiet_internString _)) fun _ =>
      bind (emit _) fun _ => pure _
  | .name n _, h => bind (resolve h.2 n) fun _ => bind (emit _) fun _ => pure _
  | .group inner _, h => expression inner h.2
  | .binary operator left right _, h =>
    bind (expression left h.2.1) fun l => bind (spill l) fun slot =>
      bind (expression right h.2.2) fun r => emitBinary h.1.2 operator slot r
  | .unary (.step step) operand _, h => by
    unfold Gen.expression
    split
    · exact emitStepValue h.1.2 step _
    · exact expression operand h.2
  | .unary .not operand _, h =>
    bind (expression operand h.2) fun t => emitUnary h.1.2 .not t
  | .unary .negate operand _, h =>
    bind (expression operand h.2) fun t => emitUnary h.1.2 .negate t
  | .unary .plus operand _, h =>
    bind (expression operand h.2) fun t => emitUnary h.1.2 .plus t
  | .call callee arguments _, h => by
    unfold Gen.expression
    refine get_bind fun g => ?_
    split
    · exact bind (discarded arguments h.2) fun _ => emitFailedCall h.1.2 _ _
    · dsimp only
      split
      · refine bind (stored arguments _ h.2) fun _ => bind (emit _) fun _ => ?_
        split
        · exact bind (emit _) fun _ => pure _
        · exact pure _
      · exact bind (discarded arguments h.2) fun _ => emitFailedCall h.1.2 _ _
  | .range start stop _ _ _ _, h =>
    bind (expression start h.2.1) fun t => bind (emitCoercion (start_of_wellPlaced h.2.1) t _) fun _ =>
      bind (spill _) fun _ => bind (expression stop h.2.2.1) fun t =>
        bind (emitCoercion (start_of_wellPlaced h.2.2.1) t _) fun _ => bind (emit _) fun _ => pure _
  | .run ⟨body, _⟩ _, h => by
    unfold Gen.expression
    refine bind (inScope (lastValue body h.2)) fun t => ?_
    split
    · exact pure _
    · exact bind (emit _) fun _ => pure _

theorem discarded : ∀ es : List Expr, (wellPlaced P).InExprs es → Total P (Gen.discarded es)
  | [], _ => pure ()
  | e :: es, h => bind (expression e h.1) fun _ => discarded es h.2

theorem stored : ∀ (es : List Expr) (ps : List Parameter), (wellPlaced P).InExprs es →
    Total P (Gen.stored es ps)
  | [], _, _ => pure _
  | _ :: _, [], _ => pure _
  | e :: es, _ :: ps, h =>
    bind (expression e h.1) fun t => bind (emitCoercion (start_of_wellPlaced h.1) t _) fun _ =>
      bind (spill _) fun _ => bind (stored es ps h.2) fun _ => pure _

theorem lastValue : ∀ body : List Stmt, (wellPlaced P).InStmts body → Total P (Gen.lastValue body)
  | [], _ => pure none
  | [b], h => by
    have hb := statement b h.1
    cases b with
    | expression e => exact map (expression e h.1.2) some
    | _ => exact bind hb fun _ => pure none
  | b :: c :: rest, h => by
    have hb := statement b h.1
    have hrest := lastValue (c :: rest) h.2
    cases b <;> exact bind hb fun _ => hrest

theorem option : ∀ e : Option Expr, (wellPlaced P).InOption e → Total P (Gen.option e)
  | none, _ => pure none
  | some e, h => map (expression e h) some

/-- The range of a `for` is there, in whatever parentheses. -/
theorem loopSlots (position : Position) : ∀ e : Expr, (wellPlaced P).InExpr e → e.ungroup.isRange →
    Total P (Gen.loopSlots position e)
  | .group inner _, h, hr => loopSlots position inner h.2 hr
  | .range start stop _ _ step _, h, _ =>
    bind (expression start h.2.1) fun t => bind (emitCoercion (start_of_wellPlaced h.2.1) t _) fun _ =>
      bind (spill _) fun _ => bind (expression stop h.2.2.1) fun t =>
        bind (emitCoercion (start_of_wellPlaced h.2.2.1) t _) fun _ => bind (spill _) fun _ =>
          bind (loopStep step h.2.2.2) fun _ => pure _

theorem loopStep : ∀ e : Option Expr, (wellPlaced P).InOption e → Total P (Gen.loopStep e)
  | none, _ =>
    bind (of_quiet (quiet_temporary _)) fun _ => bind (emit _) fun _ => pure _
  | some e, h =>
    bind (expression e h) fun t => bind (emitCoercion (start_of_wellPlaced h) t _) fun _ => emitStepCheck

theorem statement : ∀ b : Stmt, (wellPlaced P).InStmt b → Total P (Gen.statement b)
  | .expression e, h => bind (expression e h.2) fun _ => pure ()
  | .declare name constant type value _, h =>
    bind (option value h.2) fun t => emitDeclaration h.1.2 none name constant type t
  | .assign target operator value _, h =>
    bind (option value h.2) fun t => emitAssignment h.1.2 target operator t
  | .print none _ _, _ => ite (emit printNewline) (pure ())
  | .print (some e) newline _, h =>
    bind (expression e h.2) fun t => emitPrint t newline
  | .block ⟨body, _⟩, h => inScope (statements body h.2)
  | .branch condition thenBody elseBody _, h =>
    bind nextLabel fun _ => bind (expression condition h.2.1) fun _ => bind (emit _) fun _ =>
      bind (statement thenBody h.2.2.1) fun _ => bind (emit _) fun _ =>
        bind (statementOption elseBody h.2.2.2) fun _ => emit _
  | .whileLoop condition body _, h =>
    bind nextLabel fun _ => bind (emit _) fun _ => bind (expression condition h.2.1) fun _ =>
      bind (emit _) fun _ => bind (inLoop _ (statement body h.2.2)) fun _ => emit _
  | .doWhile body condition _, h =>
    bind nextLabel fun _ => bind (emit _) fun _ => bind (inLoop _ (statement body h.2.1)) fun _ =>
      bind (emit _) fun _ => bind (expression condition h.2.2) fun _ => emit _
  | .forLoop counter range body _, h =>
    bind nextLabel fun number => bind (loopSlots range.span.start range h.2.1 h.1.1) fun slots =>
      withCounter counter (emitLaps number slots (statement body h.2.2))
  | .function _, _ => pure ()
  | .return none _, _ => emitReturn nofun
  | .return (some e) _, h =>
    bind (expression e h.2) fun _ =>
      emitReturn fun _ hv => Option.mem_some_iff.mp hv ▸ start_of_wellPlaced h.2
  | .break _, _ => emitLoopJump _
  | .continue _, _ => emitLoopJump _

theorem statementOption : ∀ b : Option Stmt, (wellPlaced P).InElse b → Total P (Gen.statementOption b)
  | none, _ => pure ()
  | some b, h => statement b h

theorem statements : ∀ body : List Stmt, (wellPlaced P).InStmts body → Total P (Gen.statements body)
  | [], _ => pure ()
  | b :: rest, h => bind (statement b h.1) fun _ => statements rest h.2

end

/-! ## Programs -/

theorem receiveParameters : ∀ (ps : List Parameter) (passages : List Passage),
    Total P (Gen.receiveParameters ps passages)
  | p :: ps, _ :: passages =>
    bind (declare p.name _ true) fun _ => bind (emit _) fun _ => receiveParameters ps passages
  | [], [] | [], _ :: _ | _ :: _, [] => pure ()

theorem topLevelStatement {t : TopLevelStmt} (ht : (wellPlaced P).InStmt t.stmt) :
    Total P (Gen.topLevelStatement t) := by
  obtain ⟨b, cell⟩ := t
  have hb := statement b ht
  refine bind nextLabel fun _ => bind (modified fun _ => rfl) fun _ => ?_
  cases b with
  | declare name constant type value span =>
    cases cell with
    | none => exact bind hb fun _ => emit _
    | some cell =>
      exact bind (option value ht.2) fun t =>
        bind (emitDeclaration ht.1.2 (some cell) name constant type t) fun _ => emit _
  | _ => exact bind hb fun _ => emit _

theorem topLevelStatements : ∀ {ts : List TopLevelStmt}, (∀ t ∈ ts, (wellPlaced P).InStmt t.stmt) →
    Total P (Gen.topLevelStatements ts)
  | [], _ => modified fun _ => rfl
  | _ :: _, h =>
    bind (topLevelStatement (h _ List.mem_cons_self)) fun _ =>
      topLevelStatements fun t ht => h t (List.mem_cons_of_mem _ ht)

section

variable {topLevel : List TopLevelStmt} (htop : ∀ t ∈ topLevel, (wellPlaced P).InStmt t.stmt)

include htop

theorem function {f : Function} (hf : (wellPlaced P).InStmts f.body.body) :
    Total P (Gen.function topLevel f) := by
  have hend : Total P (do
      Gen.inScope (Gen.statements f.body.body)
      Gen.emitZero f.returns.valueType
      let g ← get
      modify fun g => { g with current := none }
      return (⟨symbolOf f.name, g.frame.size, g.code.toList⟩ : Routine)) :=
    bind (inScope (statements f.body.body hf)) fun _ => bind (emitZero _) fun _ =>
      get_bind fun _ => bind (modified fun _ => rfl) fun _ => pure _
  refine bind (modified fun _ => rfl) fun _ => bind (receiveParameters _ _) fun _ => ?_
  split
  · exact bind (topLevelStatements htop) fun _ => hend
  · exact hend

theorem functions : ∀ {fs : List Function}, (∀ f ∈ fs, (wellPlaced P).InStmts f.body.body) →
    Total P (Gen.functions topLevel fs)
  | [], _ => pure _
  | _ :: _, h =>
    bind (function htop (h _ List.mem_cons_self)) fun _ =>
      bind (functions fun f hf => h f (List.mem_cons_of_mem _ hf)) fun _ => pure _

end

/-- A function that replaces another is reported where it starts. -/
theorem placed_registered {p : Program} (h : ∀ f ∈ p.functions, P f.span.start) :
    (registered p .new).Placed P := by
  intro fault hf
  obtain ⟨f, hmem, rfl⟩ := mem_replacements hf
  exact h f hmem

end Total

end Gen

open Gen

/-- Code is generated for a well-formed program, unless none of its functions is `main`. What
is reported is where nodes of the program start. -/
theorem Program.compile_of_wellPlaced {P : Position → Prop} {p : Program}
    (h : (wellPlaced P).InProgram p) :
    (∃ g ∈ p.functions, g.name = "main") ∧
        (∃ c, p.compile = .ok c ∧ ∀ f ∈ c.diagnostics, P f.position) ∨
      (∀ g ∈ p.functions, g.name ≠ "main") ∧
        p.compile = .error ⟨.missingMain, p.span.start⟩ := by
  by_cases hm : ∃ g ∈ p.functions, g.name = "main"
  · refine .inl ⟨hm, ?_⟩
    have hstarts : ∀ f ∈ p.functions, P f.span.start := by
      intro f hf
      obtain ⟨b, hb, hfb⟩ := List.mem_filterMap.mp hf
      obtain ⟨-, hstart⟩ := NodeProperty.stmt_of_inStmt (NodeProperty.inStmts_iff.mp h b hb)
      cases b with
      | function g =>
        cases hfb
        exact hstart
      | _ => cases hfb
    have hregister := register_of_main (g := .new) (contains_signed.mpr (.inr hm))
    have htop : ∀ t ∈ topLevelOf p .new, (wellPlaced P).InStmt t.stmt := fun t ht =>
      NodeProperty.inStmts_iff.mp (NodeProperty.inStmts_topLevel h) t.stmt
        (stmts_equipAll [] (knowing p.functions .new) p.topLevel ▸ List.mem_map_of_mem ht)
    have hbodies : ∀ f ∈ lastOfName p.functions, (wellPlaced P).InStmts f.body.body :=
      fun f hf => NodeProperty.inStmts_of_functions h (lastOfName_subset _ hf)
    obtain ⟨rs, g, hrs, hg⟩ := Total.functions htop hbodies _ (Total.placed_registered hstarts)
    obtain ⟨listing, hlisting⟩ : ∃ listing, Gen.program p .new = .ok listing g :=
      ⟨_, by rw [Gen.program, bind_of_ok _ hregister, bind_of_ok _ hrs]; rfl⟩
    exact ⟨⟨listing, g.diagnostics⟩, by rw [Program.compile, hlisting], hg⟩
  · refine .inr ⟨fun g hg hn => hm ⟨g, hg, hn⟩, ?_⟩
    have hno : ¬ (knowing p.functions .new).signatures.contains "main" = true := fun hc =>
      hm ((contains_signed.mp hc).resolve_left nofun)
    rw [Program.compile, Gen.program, bind_of_error _ (register_of_no_main hno)]

theorem Program.compile_of_wellFormed {p : Program} (h : wellFormed.InProgram p) :
    (∃ g ∈ p.functions, g.name = "main") ∧ (∃ c, p.compile = .ok c) ∨
      (∀ g ∈ p.functions, g.name ≠ "main") ∧
        p.compile = .error ⟨.missingMain, p.span.start⟩ := by
  rcases compile_of_wellPlaced (wellPlaced_of_wellFormed (fun _ => trivial) h) with
    ⟨hm, c, hc, -⟩ | hno
  · exact .inl ⟨hm, c, hc⟩
  · exact .inr hno

theorem Program.compile_error_iff {p : Program} (h : wellFormed.InProgram p) {f : Fault} :
    p.compile = .error f ↔
      f = ⟨.missingMain, p.span.start⟩ ∧ ∀ g ∈ p.functions, g.name ≠ "main" := by
  rcases p.compile_of_wellFormed h with ⟨⟨g, hg, hn⟩, c, hc⟩ | ⟨hno, hc⟩
  · rw [hc]
    exact ⟨nofun, fun hf => absurd hn (hf.2 g hg)⟩
  · rw [hc]
    exact ⟨fun hf => ⟨(Except.error.inj hf).symm, hno⟩, fun hf => by rw [hf.1]⟩

theorem compileSource_error_iff {source file : String} {p : Program}
    (hp : Program.ofSource source file = .ok p) (h : wellFormed.InProgram p) {halt : Halt} :
    compileSource source file = .error halt ↔
      halt = .fault ⟨.missingMain, p.span.start⟩ ∧ ∀ g ∈ p.functions, g.name ≠ "main" := by
  rw [compileSource, hp]
  dsimp only
  cases hc : p.compile with
  | ok c =>
    refine ⟨nofun, fun hf => ?_⟩
    have hno := (Program.compile_error_iff h).mpr ⟨rfl, hf.2⟩
    rw [hc] at hno
    cases hno
  | error f =>
    obtain ⟨rfl, hno⟩ := (Program.compile_error_iff h).mp hc
    exact ⟨fun hf => ⟨(Except.error.inj hf).symm, hno⟩, fun hf => by rw [hf.1]⟩

end ScriptLang
