import ScriptLang.Proofs.Codegen.Meaning
import ScriptLang.Proofs.Codegen.Pieces
import ScriptLang.Proofs.Codegen.Totality

/-!
# Estimated types

A global that is declared without a type has a cell of the type that its initial value is
estimated to have, by what globals and functions tell. An estimate knows no scopes. It is the type
of the code of the value where the names that decide the type are read from globals declared in
front, or from slots of the frame that happen to have the type estimated for the name.
-/

namespace ScriptLang

open Assembly Gen Generator

/-- The type that is estimated for a name. -/
def NameMap.typeOf (globals : NameMap Slot) (name : String) : ValueType :=
  ((globals.find? name).map (·.type)).getD .integer

section

variable (names : List String) (globals : NameMap Slot)

/-- Read in this state, the name has the type that is estimated for it: it is one of these names
and no slot of the frame, or a slot that has the type. -/
def Generator.Foresees (g : Generator) (name : String) : Prop :=
  match g.frame.find? name with
  | some slot => slot.type = globals.typeOf name
  | none => name ∈ names

mutual

/-- The names that decide the type of an expression are read as foreseen, in code from a state
on. Those are not in a comparison or a call, and in a `run` in the last statement only. -/
def Expr.Foreseen : Expr → Generator → Prop
  | .name n _, g => g.Foresees names globals n
  | .group inner _, g => inner.Foreseen g
  | .binary (.arithmetic _) left right _, g => left.Foreseen g ∧
    ∀ slot h, (do spill (← expression left)) g = .ok slot h → right.Foreseen h
  | .unary .not _ _, _ => True
  | .unary _ operand _, g => operand.Foreseen g
  | .run ⟨body, _⟩ _, g => lastForeseen body g.pushed
  | _, _ => True

/-- The names that decide the type of the last statement are read as foreseen. -/
def lastForeseen : List Stmt → Generator → Prop
  | [], _ => True
  | [.expression e], g => e.Foreseen g
  | s :: rest, g => ∀ h, statement s g = .ok () h → lastForeseen rest h

end

end

/-- What was told where a type was estimated is so in this state: these names mean globals of the
same types, and the functions are the same. -/
structure Generator.Upholds (names : List String) (globals : NameMap Slot)
    (returns : NameMap DeclaredType) (g : Generator) : Prop where
  rooted : g.Rooted
  globals : ∀ name ∈ names, g.globals.find? name = globals.find? name
  returns : returnTypes g = returns

section

variable {names : List String} {globals : NameMap Slot} {returns : NameMap DeclaredType}
  {g g' : Generator}

theorem Gen.returnTypes_congr (h : g'.signatures = g.signatures) :
    returnTypes g' = returnTypes g := by
  rw [returnTypes, returnTypes, h]

namespace Generator.Upholds

theorem retained (h : g.Upholds names globals returns) (hr : g.Retains g') :
    g'.Upholds names globals returns where
  rooted := hr.rooted
  globals := by rw [hr.globals]; exact h.globals
  returns := (returnTypes_congr hr.signatures).trans h.returns

theorem pushed (h : g.Upholds names globals returns) : g.pushed.Upholds names globals returns :=
  h.retained ⟨List.cons_ne_nil _ _, rfl, rfl⟩

/-- A name that is read as foreseen has the type that is estimated for it. -/
theorem type_resolve (h : g.Upholds names globals returns) {name : String}
    (hn : g.Foresees names globals name) {position : Position} {slot : Slot}
    (hx : resolve name position g = .ok slot g') : slot.type = globals.typeOf name := by
  rw [Foresees] at hn
  rw [resolve, get_bind, Generator.find?] at hx
  cases hf : g.frame.find? name with
  | some s =>
    rw [hf] at hn hx
    cases hx
    exact hn
  | none =>
    rw [hf] at hn hx
    have hn : name ∈ names := hn
    rw [Option.none_or, h.globals name hn] at hx
    rw [NameMap.typeOf]
    cases hs : globals.find? name with
    | some s =>
      rw [hs] at hx
      cases hx
      rfl
    | none =>
      rw [hs] at hx
      obtain ⟨_, _, ⟨⟩, hx⟩ := bind_ok.mp hx
      obtain ⟨_, _, ⟨⟩, hx⟩ := bind_ok.mp hx
      obtain ⟨_, _, ⟨⟩, hx⟩ := bind_ok.mp hx
      cases hx
      rfl

end Generator.Upholds

/-! ## The estimate, by the form of the expression -/

namespace Expr

theorem staticType_name (name : String) (span : Span) :
    (Expr.name name span).staticType globals returns = globals.typeOf name := by
  rw [staticType, NameMap.typeOf]
  cases globals.find? name <;> rfl

theorem staticType_binary (operator : BinaryOperator) (left right : Expr) (span : Span) :
    (Expr.binary operator left right span).staticType globals returns =
      operator.resultType (left.staticType globals returns) (right.staticType globals returns) := by
  cases operator <;> rfl

theorem staticType_call (callee : String) (arguments : List Expr) (span : Span) :
    (Expr.call callee arguments span).staticType globals (returnTypes g) =
      ((g.signatures.find? callee).map (·.function.returns.valueType)).getD .integer := by
  rw [staticType, find?_returnTypes]
  cases g.signatures.find? callee <;> rfl

theorem staticType_ungroup : ∀ e : Expr,
    e.ungroup.staticType globals returns = e.staticType globals returns
  | .group inner _ => staticType_ungroup inner
  | .integer .. | .float .. | .boolean .. | .string .. | .name .. | .binary .. | .unary ..
  | .call .. | .range .. | .run .. => rfl

theorem foreseen_ungroup : ∀ e : Expr, e.Foreseen names globals g →
    e.ungroup.Foreseen names globals g
  | .group inner _, h => foreseen_ungroup inner h
  | .integer .., h | .float .., h | .boolean .., h | .string .., h | .name .., h | .binary .., h
  | .unary .., h | .call .., h | .range .., h | .run .., h => h

end Expr

/-! ## The type of the code -/

namespace Gen

/-- Whenever the computation ends, this is its result. -/
def Gives {α : Type} (x : Gen α) (a : α) : Prop := ∀ g b g', x g = .ok b g' → b = a

namespace Gives

variable {α β : Type} {x : Gen α} {f : α → Gen β} {b : β}

theorem pure (b : β) : Gives (Pure.pure b) b := by
  rintro _ _ _ ⟨⟩
  rfl

/-- What comes last gives the result. -/
theorem bind (h : ∀ a, Gives (f a) b) : Gives (x >>= f) b := by
  intro g b' g' hx
  obtain ⟨a, k, -, hf⟩ := bind_ok.mp hx
  exact h a k b' g' hf

end Gives

theorem gives_emitFailedCall (cause : Cause) (type : ValueType) (position : Position) :
    Gives (emitFailedCall cause type position) type :=
  .bind fun _ => .bind fun _ => .pure type

theorem gives_call {signature : Signature} {callee : String} {arguments : List Expr} {span : Span}
    (hf : g.signatures.find? callee = some signature) {t : ValueType}
    (h : expression (.call callee arguments span) g = .ok t g') :
    t = signature.function.returns.valueType := by
  rw [expression, get_bind, hf] at h
  dsimp only at h
  split at h
  · refine Gives.bind (fun _ => .bind fun _ => ?_) _ _ _ h
    split
    · exact .bind fun _ => .pure _
    · exact .pure _
  · exact Gives.bind (fun _ => gives_emitFailedCall _ _ _) _ _ _ h

theorem gives_call_of_none {callee : String} {arguments : List Expr} {span : Span}
    (hf : g.signatures.find? callee = none) {t : ValueType}
    (h : expression (.call callee arguments span) g = .ok t g') : t = .integer := by
  rw [expression, get_bind, hf] at h
  exact Gives.bind (fun _ => gives_emitFailedCall _ _ _) _ _ _ h

variable {t : ValueType}

theorem type_emitStepValue (hg : g.Upholds names globals returns) {name : String}
    (hn : g.Foresees names globals name) {step : Step} {position : Position}
    (h : emitStepValue step name position g = .ok t g') : t = globals.typeOf name := by
  obtain ⟨slot, _, hslot, h⟩ := bind_ok.mp h
  rw [← hg.type_resolve hn hslot]
  refine Gives.bind (fun _ => .bind fun _ => ?_) _ _ _ h
  split
  · split
    · exact .bind fun _ => .pure _
    · exact .bind fun _ => .pure _
    · exact .pure _
  · exact .pure _

mutual

theorem type_expression : ∀ (e : Expr) {g g' : Generator} {t : ValueType},
    g.Upholds names globals returns → e.Foreseen names globals g →
    expression e g = .ok t g' → t = e.staticType globals returns
  | .integer .., _, _, _, _, _, h | .boolean .., _, _, _, _, _, h =>
    Gives.bind (fun _ => .pure _) _ _ _ h
  | .float .., _, _, _, _, _, h | .string .., _, _, _, _, _, h =>
    Gives.bind (fun _ => .bind fun _ => .pure _) _ _ _ h
  | .name n span, g, _, _, hg, hn, h => by
    obtain ⟨slot, _, hslot, h⟩ := bind_ok.mp h
    obtain ⟨_, _, -, h⟩ := bind_ok.mp h
    cases h
    rw [Expr.staticType_name]
    exact hg.type_resolve hn hslot
  | .group inner _, _, _, _, hg, he, h => type_expression inner hg he h
  | .binary operator left right span, g, g', t, hg, he, h => by
    obtain ⟨l, g₁, hl, h⟩ := bind_ok.mp h
    obtain ⟨slot, g₂, hs, h⟩ := bind_ok.mp h
    obtain ⟨r, g₃, hr, h⟩ := bind_ok.mp h
    obtain ⟨_, _, hx, ht, -⟩ := yields_emitBinary operator slot r span.start g₃
    cases hx.symm.trans h
    rw [ht, Expr.staticType_binary]
    cases operator with
    | arithmetic o =>
      obtain ⟨hleft, hright⟩ := he
      have hspilled : (do spill (← expression left)) g = .ok slot g₂ := (bind_of_ok _ hl).trans hs
      obtain ⟨_, _, hx, hslot, -⟩ := yields_spill l g₁
      cases hx.symm.trans hs
      rw [hslot, type_expression left hg hleft hl,
        type_expression right (hg.retained (.of_spilled hg.rooted hspilled))
          (hright slot g₂ hspilled) hr]
    | comparison o => rfl
    | logical o => rfl
  | .unary .not operand span, _, _, _, _, _, h => by
    obtain ⟨r, k, -, h⟩ := bind_ok.mp h
    obtain ⟨_, _, hx, ht, -⟩ := yields_emitUnary .not r span.start k
    cases hx.symm.trans h
    exact ht
  | .unary .negate operand span, _, _, _, hg, he, h
  | .unary .plus operand span, _, _, _, hg, he, h => by
    obtain ⟨r, k, hr, h⟩ := bind_ok.mp h
    obtain ⟨_, _, hx, ht, -⟩ := yields_emitUnary _ r span.start k
    cases hx.symm.trans h
    exact ht.trans (type_expression operand hg he hr)
  | .unary (.step step) operand span, _, _, _, hg, he, h => by
    rw [expression] at h
    have hnamed := Expr.foreseen_ungroup operand he
    have hestimate : operand.ungroup.staticType globals returns =
        operand.staticType globals returns := operand.staticType_ungroup
    cases hu : operand.ungroup with
    | name n s =>
      rw [hu] at h hnamed hestimate
      rw [Expr.staticType_name] at hestimate
      exact (type_emitStepValue hg hnamed h).trans hestimate
    | _ =>
      rw [hu] at h
      exact type_expression operand hg he h
  | .call callee arguments span, g, _, _, hg, _, h => by
    rw [← hg.returns, Expr.staticType_call]
    cases hf : g.signatures.find? callee with
    | none => exact gives_call_of_none hf h
    | some signature => exact gives_call hf h
  | .range .., _, _, _, _, _, h =>
    Gives.bind (fun _ => .bind fun _ => .bind fun _ => .bind fun _ => .bind fun _ =>
      .bind fun _ => .pure _) _ _ _ h
  | .run ⟨body, _⟩ _, g, g', t, hg, he, h => by
    rw [expression] at h
    obtain ⟨v, k, hv, h⟩ := bind_ok.mp h
    obtain ⟨_, _, ⟨⟩, hv⟩ := bind_ok.mp hv
    obtain ⟨v, k, hbody, hv⟩ := bind_ok.mp hv
    cases hv
    have hlast := type_lastValue body hg.pushed he hbody
    cases v with
    | some v =>
      cases h
      exact hlast
    | none =>
      cases h
      exact hlast

/-- The last statement has the type that is estimated, an integer for one without a value. -/
theorem type_lastValue : ∀ (body : List Stmt) {g g' : Generator} {t : Option ValueType},
    g.Upholds names globals returns → lastForeseen names globals body g →
    lastValue body g = .ok t g' → t.getD .integer = lastStaticType globals returns body
  | [], _, _, _, _, _, h => by
    cases h
    rfl
  | s :: rest, g, g', t, hg, hb, h => by
    have hothers : (do statement s; lastValue rest) g = .ok t g' →
        (∀ k, statement s g = .ok () k → lastForeseen names globals rest k) →
        t.getD .integer = lastStaticType globals returns rest := by
      intro h hb
      obtain ⟨_, k, hs, h⟩ := bind_ok.mp h
      exact type_lastValue rest (hg.retained (.of_statement hg.rooted hs)) (hb k hs) h
    cases s with
    | expression e =>
      cases rest with
      | nil =>
        obtain ⟨t, ht, rfl⟩ := map_ok.mp h
        exact type_expression e hg hb ht
      | cons => exact hothers h hb
    | _ => exact hothers h hb

end

end Gen

end

/-! ## Programs -/

namespace Gen

/-- Functions are generated one behind the other. -/
theorem run_functions {ts : List TopLevelStmt} {f : Function} {others : List Function} :
    ∀ {fs : List Function} {g g' : Generator} {rs : List Routine}, g.topLevelExit = none →
      functions ts (fs ++ f :: others) g = .ok rs g' →
      ∃ rs' k r k', functions ts fs g = .ok rs' k ∧ function ts f k = .ok r k' ∧ r ∈ rs ∧
        k.topLevelExit = none
  | [], g, g', rs, hg, h => by
    obtain ⟨r, k, hr, h⟩ := bind_ok.mp h
    obtain ⟨rest, _, -, h⟩ := bind_ok.mp h
    cases h
    exact ⟨[], g, r, k, rfl, hr, List.mem_cons_self, hg⟩
  | f' :: fs, g, g', rs, hg, h => by
    obtain ⟨r', g₁, hr', h⟩ := bind_ok.mp h
    obtain ⟨rest, _, hrest, h⟩ := bind_ok.mp h
    cases h
    obtain ⟨t, hm, rfl, -⟩ := made_of_function hg hr'
    obtain ⟨rs', k, r, k', hfs, hr, hmem, hk⟩ :=
      run_functions (g := behind t) (hm.before.topLevelExit.trans hg) hrest
    exact ⟨r' :: rs', k, r, k', (bind_of_ok _ hr').trans (bind_of_ok _ hfs), hr,
      List.mem_cons_of_mem _ hmem, hk⟩

/-- Behind functions, the same functions are known. -/
theorem signatures_functions {ts : List TopLevelStmt} : ∀ {fs : List Function} {g g' : Generator}
    {rs : List Routine}, g.topLevelExit = none → functions ts fs g = .ok rs g' →
    g'.signatures = g.signatures
  | [], _, _, _, _, h => by
    cases h
    rfl
  | f :: fs, g, g', rs, hg, h => by
    obtain ⟨r, g₁, hr, h⟩ := bind_ok.mp h
    obtain ⟨rest, _, hrest, h⟩ := bind_ok.mp h
    cases h
    obtain ⟨t, hm, rfl, -⟩ := made_of_function hg hr
    have hrest : g'.signatures = t.generator.signatures :=
      signatures_functions (g := behind t) (hm.before.topLevelExit.trans hg) hrest
    exact hrest.trans hm.before.signatures

/-- A value of the type of the cell is stored as it is. -/
theorem emitDeclaration_of_type (cell : Slot) (name : String) (constant : Bool)
    (position : Position) (g : Generator) :
    emitDeclaration (some cell) name constant none (some cell.type) position g = .ok () { g with
      globals := g.globals.insert name cell, code := g.code ++ cell.storeCode } := by
  have hcoerced : emitCoercion cell.type cell.type position = Pure.pure () := by
    unfold emitCoercion
    rw [if_pos rfl]
  change (do emitCoercion cell.type cell.type position; emit cell.storeCode)
    { g with globals := g.globals.insert name cell } = _
  rw [hcoerced]
  rfl

/-- Generates what stands in front of a statement of the top level where no function comes before
`main`. -/
def startTopLevel (p : Program) (main : Function) (index : Nat) : Gen Unit := do
  let ts ← register p
  enterFunction main
  topLevelFront (ts.take index)
  enterTopLevel

end Gen

/-- What the two passes over a program make of a declaration of the top level that has an initial
value and no type. -/
structure Initialization (p : Program) (c : Compiled) (before : List Stmt) (name : String)
    (constant : Bool) (e : Expr) (span : Span) where
  /-- The statements in front, with their cells. -/
  front : List TopLevelStmt
  /-- What is known where the cell is registered. -/
  known : Generator
  cell : Slot
  rest : List TopLevelStmt
  /-- Behind the first pass. -/
  registered : Generator
  main : Function
  /-- Where the code of `main` starts. -/
  entry : Generator
  routine : Routine
  /-- Where the code of the value starts. -/
  start : Generator
  type : ValueType
  /-- Behind the code of the value. -/
  behind : Generator
  /-- Behind the declaration. -/
  done : Generator
  registers_front : ∃ g, registerFunctions p.functions .new = .ok () g ∧
    registerCells [] before g = .ok front known
  estimated : cell.type = e.staticType known.globals (returnTypes known)
  registers : register p .new = .ok
    (front ++ ⟨.declare name constant none (some e) span, some cell⟩ :: rest) registered
  named : main.name = "main"
  reaches : ∃ fs others rs, lastOfName p.functions = fs ++ main :: others ∧
    functions (front ++ ⟨.declare name constant none (some e) span, some cell⟩ :: rest) fs
      registered = .ok rs entry
  runs : ∃ g, function (front ++ ⟨.declare name constant none (some e) span, some cell⟩ :: rest)
    main entry = .ok routine g
  listed : routine ∈ c.listing.routines
  leads : (do enterFunction main; topLevelFront front; enterTopLevel) entry = .ok () start
  value : expression e start = .ok type behind
  declares :
    emitDeclaration (some cell) name constant none (some type) span.start behind = .ok () done
  body : ∃ code, routine.body = done.code.toList ++ code

namespace Initialization

variable {p : Program} {c : Compiled} {before after : List Stmt} {name : String} {constant : Bool}
  {e : Expr} {span : Span}

/-- In a program that is compiled, both passes come by every such declaration. -/
theorem exists_of_compile (h : p.compile = .ok c)
    (hp : p.topLevel = before ++ .declare name constant none (some e) span :: after) :
    Nonempty (Initialization p c before name constant e span) := by
  obtain ⟨_, hg⟩ := Program.generated_of_compile h
  obtain ⟨ts, registered, hregister, hg⟩ := bind_ok.mp hg
  obtain ⟨rs, _, hrs, hg⟩ := bind_ok.mp hg
  obtain ⟨_, _, ⟨⟩, hg⟩ := bind_ok.mp hg
  obtain ⟨hlisting, -⟩ := pure_ok.mp hg
  -- The first pass gives the declaration a cell.
  obtain ⟨hmain, rfl, -⟩ := register_ok hregister
  generalize hfront : equipAll [] (knowing p.functions .new) before = front
  let known := housing front (knowing p.functions .new)
  obtain ⟨cell, rest, hts, hestimate⟩ : ∃ cell rest, topLevelOf p .new =
      front ++ ⟨.declare name constant none (some e) span, some cell⟩ :: rest ∧
        cell.type = e.staticType known.globals (returnTypes known) := by
    rw [topLevelOf, hp, equipAll_append, hfront]
    exact ⟨_, _, rfl, rfl⟩
  rw [hts] at hregister hrs
  -- The second pass comes by the declaration at the head of `main`.
  obtain ⟨f, hf, hname⟩ := (contains_signed.mp hmain).resolve_left nofun
  obtain ⟨main, hmem, hnamed⟩ := exists_lastOfName hf
  rw [hname] at hnamed
  obtain ⟨fs, others, hlast⟩ := List.append_of_mem hmem
  rw [hlast] at hrs
  obtain ⟨rs', entry, r, _, hreach, hr, hlisted, houtside⟩ :=
    run_functions (registered_register hregister).topLevelExit hrs
  obtain ⟨k, k', g, post, hk, hinside, hstart, -, -, hbody, hroutine, -⟩ :=
    run_function houtside hr
  rw [if_pos hnamed] at hstart
  obtain ⟨v, start, done, code, hv, henter, hhoused, -, -, -, hcode⟩ :=
    run_topLevelPart hinside hstart hbody
  obtain ⟨_, behind, hoption, hdeclare⟩ := bind_ok.mp hhoused
  obtain ⟨type, hvalue, rfl⟩ := map_ok.mp hoption
  exact ⟨{
    front, known, cell, rest, registered, main, entry, routine := r, start, type, behind, done
    registers_front := ⟨_, registerFunctions_eq _ _, by rw [registerCells_eq, hfront]⟩
    estimated := hestimate
    registers := hregister
    named := hnamed
    reaches := ⟨fs, others, rs', hlast, hreach⟩
    runs := ⟨_, hr⟩
    listed := by rw [hlisting]; exact hlisted
    leads := (bind_of_ok _ hk).trans ((bind_of_ok _ hv).trans henter)
    value := hvalue
    declares := hdeclare
    body := ⟨Instruction.label (.numbered .topEnd (v.labels + 1)) :: (code ++ post), by
      rw [hroutine, hcode.toList]
      simp⟩ }⟩

variable (i : Initialization p c before name constant e span)

/-- Where the code of the value starts, names that were declared in front mean the cells that they
meant when the type was estimated. -/
theorem upholds : i.start.Upholds (before.filterMap declared?) i.known.globals
    (returnTypes i.known) := by
  obtain ⟨front, known, cell, rest, registered, main, entry, _, start, _, _, _,
    ⟨g₁, hfunctions, hfront⟩, -, hregister, -, ⟨fs, others, rs, -, hreach⟩, -, -, hlead, -, -, -⟩ := i
  cases hfunctions.symm.trans (registerFunctions_eq _ _)
  obtain ⟨hfront, hknown⟩ := EStateM.Result.ok.inj (hfront.symm.trans (registerCells_eq _ _ _))
  obtain ⟨-, -, rfl⟩ := register_ok hregister
  have hentry := signatures_functions (registered_register hregister).topLevelExit hreach
  obtain ⟨_, k, hk, hlead⟩ := bind_ok.mp hlead
  obtain ⟨_, v, hv, hlead⟩ := bind_ok.mp hlead
  obtain ⟨hkin, -⟩ := inside_enterFunction hk
  obtain ⟨hvin, hglobals⟩ := globals_topLevelFront hkin hv
  cases hlead
  refine ⟨hvin.rooted, fun name hname => ?_, ?_⟩
  · have hmeans : known.globals.find? = TopLevelStmt.rebindAll (fun _ => none) front := by
      rw [hknown, ← hfront]
      exact TopLevelStmt.find?_foldl_rebound _ _
    have hsome : (known.globals.find? name).isSome = true := by
      rw [hknown]
      exact isSome_find?_declared hname _ _ _
    rw [hmeans] at hsome
    change v.globals.find? name = known.globals.find? name
    rw [hmeans, hglobals]
    exact TopLevelStmt.rebindAll_of_isSome hsome
  · have hsignatures := congrArg Generator.signatures hknown
    exact returnTypes_congr (hvin.signatures.trans (hentry.trans hsignatures.symm))

theorem stores (h : i.type = i.cell.type) : i.done = { i.behind with
    globals := i.behind.globals.insert name i.cell
    code := i.behind.code ++ i.cell.storeCode } := by
  have hdeclares := i.declares
  rw [h, emitDeclaration_of_type] at hdeclares
  exact (EStateM.Result.ok.inj hdeclares).2.symm

/-- With no other function, code generation starts right behind the first pass. -/
theorem startTopLevel_of_single {main : Function} (h : p.functions = [main]) :
    startTopLevel p main before.length .new = .ok () i.start := by
  obtain ⟨_, -, hfront⟩ := i.registers_front
  obtain ⟨fs, others, _, hlast, hreach⟩ := i.reaches
  rw [h] at hlast
  obtain ⟨rfl, hmain, -⟩ : fs = [] ∧ main = i.main ∧ others = [] := by
    have hlast : [main] = fs ++ i.main :: others := hlast
    cases fs with
    | nil => exact ⟨rfl, (List.cons_eq_cons.mp hlast).1, (List.cons_eq_cons.mp hlast).2.symm⟩
    | cons f fs => simp at hlast
  have hlength : i.front.length = before.length := by
    rw [(EStateM.Result.ok.inj (hfront.symm.trans (registerCells_eq _ _ _))).1]
    exact (List.length_map _).symm.trans (congrArg List.length (stmts_equipAll _ _ before))
  have hleads := i.leads
  rw [← (EStateM.Result.ok.inj hreach).2, ← hmain] at hleads
  refine (bind_of_ok _ i.registers).trans ?_
  rw [List.take_left' hlength]
  exact hleads

end Initialization

/-- A declaration of the top level without a type has a cell of the type that the code of its
initial value has, if the names that decide the type are read from globals declared in front, or
from the frame with the type that is estimated for them. The value is then stored as it is: none
is converted or replaced by zero, and nothing is reported. -/
theorem Program.estimates_of_compile {p : Program} {c : Compiled} (h : p.compile = .ok c)
    {before after : List Stmt} {name : String} {constant : Bool} {e : Expr} {span : Span}
    (hp : p.topLevel = before ++ .declare name constant none (some e) span :: after) :
    Nonempty (Initialization p c before name constant e span) ∧
      ∀ i : Initialization p c before name constant e span,
        e.Foreseen (before.filterMap declared?) i.known.globals i.start →
        i.type = i.cell.type ∧ i.done = { i.behind with
          globals := i.behind.globals.insert name i.cell
          code := i.behind.code ++ i.cell.storeCode } := by
  refine ⟨Initialization.exists_of_compile h hp, fun i hforeseen => ?_⟩
  have htype : i.type = i.cell.type :=
    (type_expression e i.upholds hforeseen i.value).trans i.estimated.symm
  exact ⟨htype, i.stores htype⟩

/-- The global was declared twice, and a local variable is added to the second. -/
theorem Program.estimates_of_compile_redeclared :
    let main : Function := ⟨"main", [], .unit, ⟨[], default⟩, default⟩
    let before : List Stmt := [.declare "x" false none (some (.integer 1 default)) default,
      .declare "x" false none (some (.string "s" default)) default]
    let e : Expr := .run ⟨[.declare "a" false none (some (.integer 2 default)) default,
      .expression (.binary (.arithmetic .add) (.name "a" default) (.name "x" default) default)],
      default⟩ default
    let p : Program := ⟨before ++ [.declare "y" false none (some e) default, .function main],
      default⟩
    ∃ c, p.compile = .ok c ∧ ∃ i : Initialization p c before "y" false e default,
      e.Foreseen (before.filterMap declared?) i.known.globals i.start ∧
      i.cell.type = .string ∧ i.type = .string ∧ i.done.diagnostics = i.behind.diagnostics := by
  intro main before e p
  have hrun : p.compile.toOption.any (fun _ => true) = true := by decide +kernel
  obtain ⟨c, hc, -⟩ := exists_of_any hrun
  have hp : p.topLevel = before ++ .declare "y" false none (some e) default :: [] := rfl
  obtain ⟨⟨i⟩, hstored⟩ := Program.estimates_of_compile hc hp
  have hknown : i.known.globals = NameMap.empty.insert "x" ⟨.cell "x.1", .string, true⟩ := by
    obtain ⟨_, ⟨⟩, hfront⟩ := i.registers_front
    rw [← (EStateM.Result.ok.inj hfront).2]
    rfl
  have hstart : i.start.frame.find? "x" = none := by
    have htest : (match startTopLevel p main before.length .new with
        | .ok _ h => (h.frame.find? "x").isNone
        | .error _ _ => false) = true := by decide +kernel
    rw [i.startTopLevel_of_single rfl] at htest
    exact Option.isNone_iff_eq_none.mp htest
  have hforeseen : e.Foreseen (before.filterMap declared?) i.known.globals i.start := by
    intro h hh
    obtain ⟨location, hscopes⟩ : ∃ location, h.frame.scopes =
        NameMap.empty.insert "a" ⟨location, .integer, true⟩ :: i.start.frame.scopes := by
      cases hh
      exact ⟨_, rfl⟩
    have ha : h.frame.find? "a" = some ⟨location, .integer, true⟩ := by
      rw [Frame.find?, hscopes]
      rfl
    refine ⟨?_, fun slot k hk => ?_⟩
    · change h.Foresees _ _ "a"
      rw [Generator.Foresees, ha, hknown]
      rfl
    · have hquiet : Yields (fun _ => True) [] (do spill (← expression (.name "a" default))) h :=
        Yields.follow (p := fun _ => True) (Yields.follow (yields_resolve
          (show h.find? "a" = _ by rw [Generator.find?, ha]; rfl) _) fun _ _ _ _ =>
            (quiet_emit _).yields fun _ _ => .pure trivial) fun _ g _ _ => quiet_spill _ g
      change k.Foresees _ _ "x"
      rw [Generator.Foresees, Frame.find?, (hquiet.sameNames hk).scopes, hscopes]
      change match i.start.frame.find? "x" with | some _ => _ | none => _
      rw [hstart]
      exact List.mem_cons_self
  obtain ⟨htype, hdone⟩ := hstored i hforeseen
  have hcell : i.cell.type = .string := by
    rw [i.estimated, hknown]
    rfl
  exact ⟨c, hc, i, hforeseen, hcell, htype.trans hcell, by rw [hdone]⟩

/-- An estimate does not see the variables of a `run`. The text that `y` is declared with is
replaced by zero. -/
theorem Program.estimate_misses_local :
    let main : Function := ⟨"main", [], .unit, ⟨[], default⟩, default⟩
    let e : Expr := .run ⟨[.declare "a" false none (some (.string "s" default)) default,
      .expression (.name "a" default)], default⟩ default
    let p : Program := ⟨[.declare "y" false none (some e) default, .function main], default⟩
    ∃ c, p.compile = .ok c ∧ c.diagnostics = [⟨.typeMatch "Int" "String", default⟩] ∧
      ∃ i : Initialization p c [] "y" false e default, i.cell.type = .integer ∧ i.type = .string := by
  intro main e p
  have hrun : p.compile.toOption.any
      (fun c => c.diagnostics = [⟨.typeMatch "Int" "String", default⟩]) = true := by decide +kernel
  obtain ⟨c, hc, hreported⟩ := exists_of_any hrun
  have hp : p.topLevel = [] ++ .declare "y" false none (some e) default :: [] := rfl
  obtain ⟨i⟩ := Initialization.exists_of_compile hc hp
  refine ⟨c, hc, of_decide_eq_true hreported, i, ?_, ?_⟩
  · obtain ⟨_, ⟨⟩, hfront⟩ := i.registers_front
    rw [i.estimated, ← (EStateM.Result.ok.inj hfront).2]
    rfl
  have htest : (match (do startTopLevel p main ([] : List Stmt).length; expression e) .new with
      | .ok t _ => decide (t = .string)
      | .error _ _ => false) = true := by decide +kernel
  rw [bind_of_ok _ (i.startTopLevel_of_single rfl), i.value] at htest
  exact of_decide_eq_true htest

end ScriptLang
