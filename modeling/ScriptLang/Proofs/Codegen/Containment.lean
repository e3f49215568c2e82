import Mathlib.Data.List.Nodup
import ScriptLang.Proofs.Codegen.Meaning
import ScriptLang.Proofs.Codegen.Totality
import ScriptLang.Proofs.Grammar.Word
import ScriptLang.Proofs.Grammar.WellFormed

/-!
# Nothing leaks out of a construct

Generation enters and leaves scopes and loops by hand, around code for trees of any depth. Every
expression and statement leaves them as it found them, and only adds names to the scope that it
stands in. So a statement of the top level starts where the declarations of the top level stand,
and a function starts with nothing of the one before it.
-/

namespace ScriptLang

open Assembly Gen Generator

/-! ## Parts of trees with a property -/

/-- The property holds throughout a part of a tree. -/
def NodeProperty.InPart (q : NodeProperty) : (k : Part) → k.Tree → Prop
  | .expression, e | .range, e => q.InExpr e
  | .statement, s => q.InStmt s
  | .body _, b => q.InStmts b

section

variable {q : NodeProperty} {i o : Part}

theorem Layer.inPart (l : Layer i o) {x : i.Tree} (h : q.InPart o (l.fill x)) : q.InPart i x := by
  cases l with
  | argument callee before after span =>
    exact NodeProperty.inExprs_iff.mp h.2 x (List.mem_append_right _ List.mem_cons_self)
  | head valued rest => exact h.1
  | leftOperand | lowerBound | rangeLower | branchCondition | whileCondition | forRange =>
    exact h.2.1
  | upperBound | rangeUpper | branchThen => exact h.2.2.1
  | rangeStep | branchElse => exact h.2.2.2
  | rightOperand | doCondition => exact h.2.2
  | loopBody loop =>
    cases loop with
    | whileLoop | forLoop => exact h.2.2
    | doWhile => exact h.2.1
  | _ => exact h.2

theorem Spot.inPart {x : i.Tree} : ∀ {o : Part} (spot : Spot i o), q.InPart o (spot.fill x) →
    q.InPart i x
  | _, .here, h => h
  | _, .within l spot, h => spot.inPart (l.inPart h)

/-- What holds throughout a program holds at its sites. -/
theorem Site.inPart {p : Program} (hp : q.InProgram p) {f : Function} (hf : f ∈ p.functions)
    {x : i.Tree} (site : Site i) (hx : site.Holds x p f) : q.InPart i x := by
  cases site with
  | body spot =>
    have hbody : f.body.body = spot.fill x := hx
    exact spot.inPart (hbody ▸ NodeProperty.inStmts_of_functions hp hf :
      q.InPart (.body false) (spot.fill x))
  | topLevel before after spot =>
    have htop := NodeProperty.inStmts_topLevel hp
    rw [hx.2] at htop
    exact spot.inPart (o := .statement)
      (NodeProperty.inStmts_iff.mp htop _ (List.mem_append_right _ List.mem_cons_self))

end

/-! ## The top level -/

namespace Generator

/-- The depth at which what is declared has a cell, while a statement of the top level is in the
making: there is only the outermost scope. -/
def topLevelDepth (g : Generator) : Option Nat := g.topLevelExit.map fun _ => Frame.new.depth

end Generator

namespace Gen

variable {g g' : Generator} {ts : List TopLevelStmt} {f : Function}

/-- Behind statements of the top level, the label that ends the last of them is left. -/
theorem extends_topLevelFront : ∀ {ts : List TopLevelStmt} {g : Generator}, g.Rooted →
    topLevelFront ts g = .ok () g' →
    ∃ topLevelExit,
      { g with globals := ts.foldl TopLevelStmt.rebound g.globals, topLevelExit }.Extends g'
  | [], _, _, h => by
    cases h
    exact ⟨_, .refl g'⟩
  | t :: ts, g, hg, h => by
    obtain ⟨_, k, ht, h⟩ := bind_ok.mp h
    obtain ⟨u, -, hu, rfl⟩ := run_numberedTopLevel ht
    have hu := extends_housed (by exact hg) hu
    obtain ⟨exit, hrest⟩ := extends_topLevelFront (by exact hu.rooted hg) h
    refine ⟨exit, hrest.signatures.trans hu.signatures, ?_, hrest.depth.trans hu.depth,
      hrest.outer.trans hu.outer, hrest.loops.trans hu.loops, hrest.current.trans hu.current,
      hrest.topLevelExit⟩
    rw [hrest.globals, hu.globals]
    rfl

theorem topLevelStatements_eq (ts : List TopLevelStmt) : topLevelStatements ts = (do
    topLevelFront ts
    modify fun g => { g with topLevelExit := none }) := by
  induction ts with
  | nil => exact (pure_bind _ _).symm
  | cons t ts ih => rw [topLevelStatements, topLevelFront, ih, bind_assoc]

/-! ## Functions -/

/-- What a function is generated by, from the state that it starts in. -/
def emission (ts : List TopLevelStmt) (f : Function) : Gen Routine := do
  receiveParameters f.parameters (Passage.ofTypes (f.parameters.map (·.type.valueType)))
  if f.name = "main" then topLevelStatements ts
  leaveFunction f

/-- A function starts with an empty frame of one scope, and out of all loops. -/
theorem function_eq (ts : List TopLevelStmt) (f : Function) (g : Generator) :
    function ts f g = emission ts f (entry g ⟨symbolOf f.name, f.returns⟩).generator := rfl

/-- What a function hands on of the state it found. -/
def handedOn (ts : List TopLevelStmt) (f : Function) (g : Generator) : Generator :=
  { g with
    globals := if f.name = "main" then ts.foldl TopLevelStmt.rebound g.globals else g.globals
    frame := .new
    loops := []
    current := none
    topLevelExit := if f.name = "main" then none else g.topLevelExit }

theorem extends_receiveParameters
    (h : receiveParameters f.parameters (Passage.ofTypes (f.parameters.map (·.type.valueType)))
      (entry g ⟨symbolOf f.name, f.returns⟩).generator = .ok () g') :
    (entry g ⟨symbolOf f.name, f.returns⟩).generator.Extends g' :=
  .of_shapes (shapes_receiveParameters _ _ _) (List.cons_ne_nil _ _) h

/-- Behind a function, none is in the making. -/
theorem extends_leaveFunction {r : Routine} (hg : g.Rooted)
    (h : leaveFunction f g = .ok r g') : ∃ u, g.Extends u ∧ g' = { u with current := none } := by
  obtain ⟨_, u, hu, h⟩ := bind_ok.mp h
  have hu := Extends.of_shapes (.inScope (shapes_statements _ _)) hg hu
  obtain ⟨_, v, hv, h⟩ := bind_ok.mp h
  have hv := Extends.of_shapes (shapes_emitZero _) (hu.rooted hg) hv
  cases h
  exact ⟨v, hu.trans hv, rfl⟩

theorem extends_function {r : Routine} (h : function ts f g = .ok r g') :
    (handedOn ts f g).Extends g' := by
  rw [function_eq] at h
  obtain ⟨_, k, hk, h⟩ := bind_ok.mp h
  have hk := extends_receiveParameters hk
  have hr : k.Rooted := hk.rooted (List.cons_ne_nil _ _)
  unfold handedOn
  dsimp only at h
  split at h
  · next hmain =>
    obtain ⟨_, k', hk', h⟩ := bind_ok.mp h
    rw [topLevelStatements_eq] at hk'
    obtain ⟨_, k₁, hfront, hk'⟩ := bind_ok.mp hk'
    cases hk'
    obtain ⟨exit, hfront⟩ := extends_topLevelFront hr hfront
    obtain ⟨u, hu, rfl⟩ := extends_leaveFunction (by exact hfront.rooted hr) h
    rw [if_pos hmain, if_pos hmain]
    refine ⟨hu.signatures.trans (hfront.signatures.trans hk.signatures), ?_,
      hu.depth.trans (hfront.depth.trans hk.depth), hu.outer.trans (hfront.outer.trans hk.outer),
      hu.loops.trans (hfront.loops.trans hk.loops), rfl, hu.topLevelExit⟩
    rw [hu.globals, hfront.globals, hk.globals]
    rfl
  · next hmain =>
    obtain ⟨u, hu, rfl⟩ := extends_leaveFunction hr h
    have hu := hk.trans hu
    rw [if_neg hmain, if_neg hmain]
    exact ⟨hu.signatures, hu.globals, hu.depth, hu.outer, hu.loops, rfl, hu.topLevelExit⟩

/-- Between functions: no statement of the top level is in the making, and global names mean the
cells that were declared last. -/
structure Between (ts : List TopLevelStmt) (g : Generator) : Prop where
  topLevelExit : g.topLevelExit = none
  globals : g.globals.find? = TopLevelStmt.rebindAll (fun _ => none) ts

theorem Between.function {r : Routine} (hg : Between ts g) (h : function ts f g = .ok r g') :
    Between ts g' := by
  have hx := extends_function h
  refine ⟨hx.topLevelExit.trans ?_, (congrArg NameMap.find? hx.globals).trans ?_⟩
  · unfold handedOn
    dsimp only
    split
    · rfl
    · exact hg.topLevelExit
  · unfold handedOn
    dsimp only
    split
    · rw [TopLevelStmt.find?_foldl_rebound, hg.globals, TopLevelStmt.rebindAll_rebindAll]
    · exact hg.globals

/-- Each of several functions is generated from a state with a property that all keep. -/
theorem functions_of_invariant {I : Generator → Prop}
    (hI : ∀ {f r g g'}, I g → Gen.function ts f g = .ok r g' → I g') : ∀ {fs : List Function}
    {g : Generator} {rs : List Routine}, I g → functions ts fs g = .ok rs g' →
    ∀ f ∈ fs, ∃ r ∈ rs, ∃ k k', I k ∧ Gen.function ts f k = .ok r k'
  | [], _, _, _, _, _, hf => nomatch hf
  | f :: fs, g, rs, hg, h, f', hf' => by
    obtain ⟨r, k, hk, h⟩ := bind_ok.mp h
    obtain ⟨rest, _, hrest, h⟩ := bind_ok.mp h
    cases h
    rcases List.mem_cons.mp hf' with rfl | hf'
    · exact ⟨r, List.mem_cons_self, g, k, hg, hk⟩
    · obtain ⟨r', hr', hmade⟩ := functions_of_invariant hI (hI hg hk) hrest f' hf'
      exact ⟨r', List.mem_cons_of_mem _ hr', hmade⟩

end Gen

/-! ## Sites -/

/-- The state at a spot has a scope if the one in front of the tree has. -/
theorem Spot.rooted_lead {i : Part} : ∀ {o : Part} (spot : Spot i o) {g h : Generator},
    g.Rooted → spot.lead g = .ok () h → h.Rooted
  | _, .here, _, _, hg, hl => by
    cases hl
    exact hg
  | _, .within layer spot, _, _, hg, hl => by
    obtain ⟨_, k, hk, hl⟩ := bind_ok.mp hl
    obtain ⟨_, _, hreaches, -⟩ := layer.reaches hg hk
    exact spot.rooted_lead hreaches.rooted hl

namespace Site

variable {i : Part} {ts : List TopLevelStmt} {f : Function} {g h : Generator}

/-- A statement of the top level starts out of all loops, in the outermost scope of the frame,
where its declaration has a cell. -/
theorem level_lead {before after : List Stmt}
    (hl : (Site.topLevel before after .here : Site .statement).lead ts f g = .ok () h) :
    h.frame.depth = Frame.new.depth ∧ h.topLevelDepth = some h.frame.depth ∧ h.loops = [] := by
  obtain ⟨_, k, hk, hl⟩ := bind_ok.mp hl
  obtain ⟨_, _, ⟨⟩, hk⟩ := bind_ok.mp hk
  have hk := extends_receiveParameters hk
  obtain ⟨_, u, hu, hl⟩ := bind_ok.mp hl
  obtain ⟨exit, hu⟩ := extends_topLevelFront (hk.rooted (List.cons_ne_nil _ _)) hu
  obtain ⟨_, _, henter, ⟨⟩⟩ := bind_ok.mp hl
  cases henter
  have hdepth : u.frame.depth = Frame.new.depth := hu.depth.trans hk.depth
  exact ⟨hdepth, congrArg some hdepth.symm, hu.loops.trans hk.loops⟩

/-- Wherever generation comes by, there is a scope to declare in. -/
theorem rooted_lead (site : Site i) (hl : site.lead ts f g = .ok () h) : h.Rooted := by
  cases site with
  | body spot =>
    obtain ⟨_, k, hk, hl⟩ := bind_ok.mp hl
    refine spot.rooted_lead ?_ hl
    obtain ⟨_, _, -, hk⟩ := bind_ok.mp hk
    dsimp only at hk
    split at hk
    · obtain ⟨_, _, -, ⟨⟩⟩ := bind_ok.mp hk
      exact List.cons_ne_nil _ _
    · cases hk
      exact List.cons_ne_nil _ _
  | topLevel before after spot =>
    obtain ⟨k, hk, hspot⟩ : ∃ k,
        (Site.topLevel before after .here : Site .statement).lead ts f g = .ok () k ∧
          spot.lead k = .ok () h := by
      have happend := lead_append ts f spot (.topLevel before after .here)
      obtain ⟨_, k, hk, hspot⟩ := bind_ok.mp ((congrFun happend g).symm.trans hl)
      exact ⟨k, hk, hspot⟩
    obtain ⟨hdepth, -⟩ := level_lead hk
    exact spot.rooted_lead (fun hnil => by rw [Frame.depth, hnil] at hdepth; cases hdepth) hspot

end Site

namespace Gen

variable {α : Type} {g g' : Generator} {x : Gen α} {rebind : NameMap Slot → NameMap Slot}

/-! ## Registration -/

/-- Only declarations of the top level make global names mean something. -/
theorem globals_register {p : Program} {ts : List TopLevelStmt}
    (h : register p .new = .ok ts g) : g.globals = ts.foldl TopLevelStmt.rebound .empty := by
  obtain ⟨-, rfl, rfl⟩ := register_ok h
  rfl

theorem between_register {p : Program} {ts : List TopLevelStmt}
    (h : register p .new = .ok ts g) : Between ts g where
  topLevelExit := (registered_register h).topLevelExit
  globals := by
    rw [globals_register h, TopLevelStmt.find?_foldl_rebound]
    rfl

/-! ## Results from every state -/

/-- The computation gives a result from every state with a scope. But for this change of the
globals, it leaves all as it was and only adds names to the innermost scope. -/
def Restoring (rebind : NameMap Slot → NameMap Slot) (x : Gen α) : Prop :=
  ∀ g : Generator, g.Rooted → ∃ a g', x g = .ok a g' ∧
    { g with globals := rebind g.globals }.Extends g' ∧ g'.topLevelDepth = g.topLevelDepth

namespace Restoring

theorem of_total (ht : Total (fun _ => True) x) (hx : ∀ {g a g'}, g.Rooted → x g = .ok a g' →
    { g with globals := rebind g.globals }.Extends g') : Restoring rebind x := by
  intro g hg
  obtain ⟨a, g', h, -⟩ := ht g fun _ _ => trivial
  have hextends := hx hg h
  exact ⟨a, g', h, hextends, congrArg (Option.map _) hextends.topLevelExit⟩

theorem expression {e : Expr} (h : (wellPlaced fun _ => True).InExpr e) :
    Restoring id (expression e) :=
  of_total (Total.expression e h) (.of_shapes (shapes_expression e _))

theorem statement {s : Stmt} (h : (wellPlaced fun _ => True).InStmt s) :
    Restoring id (statement s) :=
  of_total (Total.statement s h) (.of_shapes (shapes_statement s _))

theorem housed {t : TopLevelStmt} (h : (wellPlaced fun _ => True).InStmt t.stmt) :
    Restoring (TopLevelStmt.rebound · t) (housed t.cell t.stmt) := by
  refine of_total ?_ extends_housed
  have hplain := Total.statement t.stmt h
  obtain ⟨stmt, cell⟩ := t
  cases cell with
  | none =>
    rw [housed_none]
    exact hplain
  | some cell =>
    cases stmt with
    | declare name constant type value span =>
      exact .bind (.option value h.2) (Total.emitDeclaration h.1.2 (some cell) name constant type)
    | _ => exact hplain

end Restoring

/-! ## Scopes -/

/-- Behind a scope of its own, all scopes are what they were. -/
theorem scopes_inScope {a : α} (hx : ∀ s, Shaped [] x s) (hg : g.Rooted)
    (h : inScope x g = .ok a g') : g'.frame.scopes = g.frame.scopes := by
  obtain ⟨_, _, ⟨⟩, h⟩ := bind_ok.mp h
  obtain ⟨_, u, hu, h⟩ := bind_ok.mp h
  cases h
  have hroot : g.pushed.Rooted := List.cons_ne_nil _ _
  exact (Extends.of_shapes (hx _) hroot hu).popped hg

theorem scopes_block {body : List Stmt} {span : Span} (hg : g.Rooted)
    (h : statement (.block ⟨body, span⟩) g = .ok () g') : g'.frame.scopes = g.frame.scopes :=
  scopes_inScope (shapes_statements body) hg h

theorem scopes_run {body : List Stmt} {inner outer : Span} {type : ValueType} (hg : g.Rooted)
    (h : expression (.run ⟨body, inner⟩ outer) g = .ok type g') :
    g'.frame.scopes = g.frame.scopes := by
  obtain ⟨value, u, hu, h⟩ := bind_ok.mp h
  have hscopes := scopes_inScope (shapes_lastValue body) hg hu
  cases value with
  | some type =>
    cases h
    exact hscopes
  | none =>
    cases h
    exact hscopes

/-- A `for` takes a counter of its own along. -/
theorem scopes_withCounter {counter : String} {number : Nat} {slots : LoopSlots} {body : Stmt}
    (hg : g.Rooted)
    (hown : ∀ slot, g.find? counter = some slot → ¬ (slot.mutable ∧ slot.type = .integer))
    (h : withCounter counter (emitLaps number slots (statement body)) g = .ok () g') :
    g'.frame.scopes = g.frame.scopes := by
  have h : inScope (do
      emitLaps number slots (statement body) (← declare counter .integer true)) g = .ok () g' := by
    obtain ⟨_, _, ⟨⟩, h⟩ := bind_ok.mp h
    cases hf : g.find? counter with
    | none =>
      rw [hf] at h
      exact h
    | some slot =>
      rw [hf] at h
      dsimp only at h
      rw [if_neg (by simpa using hown slot hf)] at h
      exact h
  have hdeclared := Stage.extends_declaring (Stage.mk g []).pushed counter .integer true
  have hroot := hdeclared.rooted (List.cons_ne_nil _ _)
  obtain ⟨_, u, hu, h⟩ := bind_ok.mp (show (emitLaps number slots (statement body)
    ((Stage.mk g []).fresh .integer) >>= fun _ => modifyFrame .pop)
      ((Stage.mk g []).pushed.declaring counter .integer true).generator = _ from h)
  cases h
  obtain ⟨t, _, hm, -, -, rfl⟩ := run_laps (shapes_statement body) hroot hu
  have hlaps := hdeclared.trans (Stage.extends_looped (hm.extends hroot))
  have hscopes := Extends.popped hg hlaps
  exact hscopes

/-- A `for` whose counter is no integer variable around it has a scope of its own behind its
range. -/
theorem scopes_forLoop {counter : String} {range : Expr} {body : Stmt} {span : Span}
    (hg : g.Rooted) (h : statement (.forLoop counter range body span) g = .ok () g') :
    ∃ slots k, (do
        let _ ← nextLabel
        loopSlots range.span.start range) g = .ok slots k ∧
      ((∀ slot, k.find? counter = some slot → ¬ (slot.mutable ∧ slot.type = .integer)) →
        g'.frame.scopes = k.frame.scopes) := by
  obtain ⟨_, _, ⟨⟩, h⟩ := bind_ok.mp h
  obtain ⟨slots, k, hslots, h⟩ := bind_ok.mp h
  have hr : k.Rooted := ((continuing_loopSlots _ range).run (by exact hg) hslots).1
  exact ⟨slots, k, hslots, fun hown => scopes_withCounter hr hown h⟩

end Gen

/-! ## Programs -/

/-- Nothing leaks in the generation of a program, whose functions are generated from this state
on, with these statements of the top level. -/
structure Program.Contained (p : Program) (ts : List TopLevelStmt) (g₀ : Generator) : Prop where
  expression : ∀ f ∈ p.functions, ∀ (site : Site .expression) (e : Expr), site.Holds e p f →
    Restoring id (Gen.expression e)
  statement : ∀ f ∈ p.functions, ∀ (site : Site .statement) (s : Stmt), site.Holds s p f →
    Restoring id (Gen.statement s)
  /-- With its cell, a declaration of the top level changes what its name means, and no other. -/
  topLevel : ∀ t ∈ ts, Restoring (TopLevelStmt.rebound · t) (housed t.cell t.stmt)
  function : ∀ f ∈ p.functions, ∀ g, ∃ r g', Gen.function ts f g = .ok r g' ∧
    (handedOn ts f g).Extends g'
  /-- What is declared in a block stays there, in a `run` as well. -/
  block : ∀ {body span} {g g' : Generator}, g.Rooted →
    Gen.statement (.block ⟨body, span⟩) g = .ok () g' → g'.frame.scopes = g.frame.scopes
  run : ∀ {body inner outer type} {g g' : Generator}, g.Rooted →
    Gen.expression (.run ⟨body, inner⟩ outer) g = .ok type g' →
    g'.frame.scopes = g.frame.scopes
  forLoop : ∀ {counter range body span} {g g' : Generator}, g.Rooted →
    Gen.statement (.forLoop counter range body span) g = .ok () g' →
    ∃ slots k, (do
        let _ ← nextLabel
        loopSlots range.span.start range) g = .ok slots k ∧
      ((∀ slot, k.find? counter = some slot → ¬ (slot.mutable ∧ slot.type = .integer)) →
        g'.frame.scopes = k.frame.scopes)
  /-- A function starts with one empty scope and out of all loops, whatever came before it. -/
  start : ∀ f g, Gen.function ts f g =
      emission ts f (entry g ⟨symbolOf f.name, f.returns⟩).generator ∧
    (entry g ⟨symbolOf f.name, f.returns⟩).generator.frame.scopes = [.empty] ∧
    (entry g ⟨symbolOf f.name, f.returns⟩).generator.loops = []
  /-- All that counts is generated, out of the top level and with the same globals. -/
  functions : ∃ rs g, Gen.functions ts (lastOfName p.functions) g₀ = .ok rs g ∧
    ∀ f ∈ lastOfName p.functions, ∃ r ∈ rs, ∃ k k', Between ts k ∧ Gen.function ts f k = .ok r k'
  /-- What is said of states with a scope is said of all that generation comes by. -/
  rooted : ∀ {i : Part} (site : Site i) {f g h}, site.lead ts f g = .ok () h → h.Rooted
  /-- A statement of the top level starts where its declaration has a cell, out of all loops. -/
  level : ∀ {before after f g h},
    (Site.topLevel before after .here : Site .statement).lead ts f g = .ok () h →
    h.frame.depth = Frame.new.depth ∧ h.topLevelDepth = some h.frame.depth ∧ h.loops = []
  stmts : ts.map (·.stmt) = p.topLevel
  cells : ∀ t ∈ ts, Housed t
  /-- Each declaration of the top level has a cell of its own. -/
  distinct : ((cellsOf ts).map (·.location)).Nodup
  globals : g₀.globals = ts.foldl TopLevelStmt.rebound .empty

/-- No two declarations of the top level share a cell. -/
theorem Program.distinct_cells {source file : String} {p : Program} {ts : List TopLevelStmt}
    {g : Generator} (h : Program.ofSource source file = .ok p) (hr : register p .new = .ok ts g) :
    ((cellsOf ts).map (·.location)).Nodup := by
  rw [(registered_register hr).locations]
  refine List.Nodup.map (fun _ _ => Location.cell.inj) (nodup_cellNames fun name hname => ?_)
  obtain ⟨b, hb, hdeclared⟩ := List.mem_filterMap.mp hname
  cases b with
  | declare =>
    cases hdeclared
    exact Program.word_of_declared h (List.mem_filter.mp hb).1
  | _ => cases hdeclared

theorem Program.wellFormed_of_ofSource {source file : String} {p : Program}
    (h : Program.ofSource source file = .ok p) : wellFormed.InProgram p := by
  unfold Program.ofSource at h
  split at h
  · exact Program.ofTokens_wellFormed h
  · cases h

/-- Of a program that is parsed nothing is generated if there is no `main`. Else, code is
generated for all of it, and nothing leaks. -/
theorem Program.contained_of_ofSource {source file : String} {p : Program}
    (h : Program.ofSource source file = .ok p) :
    ((∀ f ∈ p.functions, f.name ≠ "main") ∧ p.compile = .error ⟨.missingMain, p.span.start⟩) ∨
      ∃ ts g₀, register p .new = .ok ts g₀ ∧ p.Contained ts g₀ := by
  have hwf := wellFormed_of_ofSource h
  have hp := wellPlaced_of_wellFormed (P := fun _ => True) (fun _ => trivial) hwf
  rcases Program.compile_of_wellFormed hwf with ⟨-, c, hc⟩ | hno
  · refine .inr ?_
    obtain ⟨g', hg'⟩ := generated_of_compile hc
    obtain ⟨ts, g₀, hr, hg'⟩ := bind_ok.mp hg'
    obtain ⟨rs, g, hfunctions, -⟩ := bind_ok.mp hg'
    have hregistered := registered_register hr
    have htop : ∀ t ∈ ts, (wellPlaced fun _ => True).InStmt t.stmt := fun t ht =>
      NodeProperty.inStmts_iff.mp (NodeProperty.inStmts_topLevel hp) t.stmt
        (hregistered.stmts ▸ List.mem_map_of_mem ht)
    refine ⟨ts, g₀, hr, {
      expression := fun f hf site e he => .expression (site.inPart hp hf he)
      statement := fun f hf site s hs => .statement (site.inPart hp hf hs)
      topLevel := fun t ht => .housed (htop t ht)
      function := fun f hf g => ?_
      block := scopes_block
      run := scopes_run
      forLoop := scopes_forLoop
      start := fun f g => ⟨function_eq ts f g, rfl, rfl⟩
      functions := ⟨rs, g, hfunctions,
        functions_of_invariant Between.function (between_register hr) hfunctions⟩
      rooted := fun site => site.rooted_lead
      level := Site.level_lead
      stmts := hregistered.stmts
      cells := hregistered.housed
      distinct := distinct_cells h hr
      globals := globals_register hr }⟩
    obtain ⟨r, g', hrun, -⟩ :=
      Total.function htop (NodeProperty.inStmts_of_functions hp hf) g fun _ _ => trivial
    exact ⟨r, g', hrun, extends_function hrun⟩
  · exact .inl hno

/-- A global is declared once more, from a `run`, between constructs with scopes of their own. -/
theorem Program.contained_of_ofSource_redeclared :
    let source := "var x = 1\nif (x == 1) { val y = x }\nvar x = run { val z = 2.5; z }\n" ++
      "fun main() { for (i in 1..3) { if (i == 2) break } }"
    ∃ p ts g₀, Program.ofSource source "redeclared.kt" = .ok p ∧ register p .new = .ok ts g₀ ∧
      (cellsOf ts).map (·.location) = [.cell "x", .cell "x.1"] ∧ p.Contained ts g₀ := by
  intro source
  have hk : (Program.ofSource source "redeclared.kt").toOption.any (fun p =>
      p.functions.any (·.name = "main") ∧ p.topLevel.filterMap declared? = ["x", "x"]) = true := by
    decide +kernel
  obtain ⟨p, hp, hk⟩ := exists_of_any hk
  obtain ⟨hmain, hnames⟩ := of_decide_eq_true hk
  rcases contained_of_ofSource hp with ⟨hno, -⟩ | ⟨ts, g₀, hr, hcontained⟩
  · obtain ⟨f, hf, hname⟩ := List.any_eq_true.mp hmain
    exact absurd (of_decide_eq_true hname) (hno f hf)
  · refine ⟨p, ts, g₀, hp, hr, ?_, hcontained⟩
    rw [(registered_register hr).locations, hnames]
    rfl

end ScriptLang
