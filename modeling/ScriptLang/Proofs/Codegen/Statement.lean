import ScriptLang.Proofs.Codegen.Expression
import ScriptLang.Proofs.Typing.Statement

/-!
# Code for statements keeps names

A statement that declares nothing leaves every name with the slot it meant. Code is
generated for all statements that fit what is known, and what they declare is known
behind them.
-/

namespace ScriptLang

namespace Generator

/-- Names may be added to the innermost scope; all else that is known by name, and the
places jumps lead to, are the same. -/
structure Extends (g g' : Generator) : Prop where
  signatures : g'.signatures = g.signatures
  globals : g'.globals = g.globals
  depth : g'.frame.scopes.length = g.frame.scopes.length
  outer : g'.frame.scopes.tail = g.frame.scopes.tail
  loops : g'.loops = g.loops
  current : g'.current = g.current
  topLevelExit : g'.topLevelExit = g.topLevelExit

variable {g g' g'' : Generator} {ds : List Fault}

theorem Adds.extends (h : g.Adds ds g') : g.Extends g' :=
  ⟨h.signatures, h.globals, by rw [h.scopes], by rw [h.scopes], h.loops, h.current,
    h.topLevelExit⟩

theorem Extends.trans (h : g.Extends g') (h' : g'.Extends g'') : g.Extends g'' where
  signatures := h'.signatures.trans h.signatures
  globals := h'.globals.trans h.globals
  depth := h'.depth.trans h.depth
  outer := h'.outer.trans h.outer
  loops := h'.loops.trans h.loops
  current := h'.current.trans h.current
  topLevelExit := h'.topLevelExit.trans h.topLevelExit

/-- All names mean what they meant. -/
structure SameNames (g g' : Generator) : Prop where
  scopes : g'.frame.scopes = g.frame.scopes
  globals : g'.globals = g.globals

theorem Adds.sameNames (h : g.Adds ds g') : g.SameNames g' := ⟨h.scopes, h.globals⟩

theorem SameNames.find? (h : g.SameNames g') (name : String) : g'.find? name = g.find? name := by
  rw [Generator.find?, Generator.find?, Frame.find?, Frame.find?, h.scopes, h.globals]

theorem SameNames.knows {Γ : Typings} (h : g.SameNames g') (hg : g.Knows Γ) : g'.Knows Γ := by
  intro name k hk
  rw [h.find?]
  exact hg name k hk

/-- There is a scope to declare in. -/
def Rooted (g : Generator) : Prop := g.frame.scopes ≠ []

theorem Extends.rooted (h : g.Extends g') (hg : g.Rooted) : g'.Rooted := by
  intro hnil
  have hd := h.depth
  rw [hnil] at hd
  exact hg (List.length_eq_zero_iff.mp hd.symm)

theorem SameNames.rooted (h : g.SameNames g') (hg : g.Rooted) : g'.Rooted := by
  rw [Rooted, h.scopes]
  exact hg

/-- In a scope of its own. -/
def pushed (g : Generator) : Generator := { g with frame := g.frame.push }

/-- Behind a scope. -/
def popped (g : Generator) : Generator := { g with frame := g.frame.pop }

/-- Behind a scope of its own, names are what they were. -/
theorem Extends.popped (hg : g.Rooted) (h : g.pushed.Extends g') :
    g'.popped.frame.scopes = g.frame.scopes := by
  obtain ⟨-, -, hd, ho, -, -, -⟩ := h
  obtain ⟨_, _, ⟨scopes, _⟩, _, _, _, _, _, _, _, _⟩ := g
  obtain ⟨_, _, ⟨scopes', _⟩, _, _, _, _, _, _, _, _⟩ := g'
  cases scopes with
  | nil => exact absurd rfl hg
  | cons inner outer =>
    match scopes', hd, ho with
    | _ :: _ :: _, _, ho => exact ho

end Generator

namespace Gen

open Assembly Generator

variable {α β : Type} {g g' : Generator} {x : Gen α} {f : α → Gen β} {ds : List Fault}

/-- The computation gives a result and only adds faults and unnamed work. -/
def Stays (x : Gen α) (g : Generator) : Prop := ∃ ds, Yields (fun _ => True) ds x g

namespace Stays

theorem pure (a : α) : Stays (Pure.pure a : Gen α) g := ⟨[], .pure trivial⟩

theorem of_yields {p : α → Prop} (h : Yields p ds x g) : Stays x g :=
  ⟨ds, h.weaken fun _ _ => trivial⟩

theorem of_quiet (h : Quiet x) : Stays x g := ⟨[], h g⟩

theorem bind (hx : Stays x g) (hf : ∀ a g' ds, g.Adds ds g' → Stays (f a) g') :
    Stays (x >>= f) g := by
  obtain ⟨ds, a, g', hx, -, hg⟩ := hx
  obtain ⟨es, b, g'', hf, -, hg'⟩ := hf a g' ds hg
  exact ⟨ds ++ es, b, g'', by rw [bind_of_ok f hx, hf], trivial, hg.trans hg'⟩

/-- What comes next does not depend on what was known. -/
theorem andThen (hx : Stays x g) (hf : ∀ a g', Stays (f a) g') : Stays (x >>= f) g :=
  hx.bind fun a g' _ _ => hf a g'

/-- The state may be read first. -/
theorem get_bind {f : Generator → Gen β} (h : Stays (f g) g) : Stays (get >>= f) g := h

theorem emit (code : List Instruction) : Stays (emit code) g := of_quiet (quiet_emit code)

theorem report (cause : Cause) (position : Position) : Stays (report cause position) g :=
  of_yields (yields_report cause position g)

theorem spill (type : ValueType) : Stays (spill type) g := of_yields (yields_spill type g)

theorem emitCoercion (source target : ValueType) (position : Position) :
    Stays (emitCoercion source target position) g :=
  of_yields (yields_emitCoercion source target position g)

/-- What was added in a loop stays behind it. -/
theorem inLoop {x : Gen Unit} (labels : LoopLabels)
    (hx : Stays x { g with loops := labels :: g.loops }) : Stays (inLoop labels x) g := by
  obtain ⟨ds, _, g', hx, -, hg⟩ := hx
  refine ⟨ds, (), { g' with loops := g'.loops.tail }, ?_, trivial, hg.signatures, hg.globals,
    hg.scopes, ?_, hg.current, hg.topLevelExit, hg.diagnostics⟩
  · have hin : (modify fun g : Generator => { g with loops := labels :: g.loops } : Gen Unit) g =
        .ok () { g with loops := labels :: g.loops } := rfl
    rw [Gen.inLoop, bind_of_ok _ hin, bind_of_ok _ hx]
    rfl
  · rw [hg.loops]
    rfl

end Stays

/-- The computation gives a result and only declares in the innermost scope. -/
def Grows (x : Gen α) (g : Generator) : Prop :=
  ∃ a g' ds, x g = .ok a g' ∧ g.Extends g' ∧ g'.diagnostics = g.diagnostics ++ ds

theorem Stays.grows (h : Stays x g) : Grows x g := by
  obtain ⟨ds, a, g', hx, -, hg⟩ := h
  exact ⟨a, g', ds, hx, hg.extends, hg.diagnostics⟩

theorem Grows.bind (hx : Grows x g) (hf : ∀ a g', x g = .ok a g' → g.Extends g' → Grows (f a) g') :
    Grows (x >>= f) g := by
  obtain ⟨a, g', ds, hx, hg, hd⟩ := hx
  obtain ⟨b, g'', es, hf, hg', hd'⟩ := hf a g' hx hg
  exact ⟨b, g'', ds ++ es, by rw [bind_of_ok f hx, hf], hg.trans hg', by
    rw [hd', hd, List.append_assoc]⟩

/-- Behind a scope of its own, nothing is declared. -/
theorem Grows.inScope (hg : g.Rooted) (hx : Grows x g.pushed) : Stays (inScope x) g := by
  obtain ⟨a, g', ds, hx, hg', hd⟩ := hx
  have hrun : Gen.inScope x g = .ok a g'.popped := by
    have hin : modifyFrame .push g = .ok () g.pushed := rfl
    rw [Gen.inScope, bind_of_ok _ hin, bind_of_ok _ hx]
    rfl
  refine ⟨ds, a, g'.popped, hrun, trivial, hg'.signatures, hg'.globals, hg'.popped hg,
    hg'.loops, hg'.current, hg'.topLevelExit, hd⟩

/-! ## Operations -/

theorem stays_option {Γ : Typings} (hg : g.Knows Γ) {value : Option Expr}
    (hv : ∀ e ∈ value, e.Typed Γ) : Stays (option value) g := by
  cases value with
  | none => exact .pure none
  | some e =>
    obtain ⟨t, ds, he⟩ := hv e rfl
    exact (Stays.of_yields (yields_expression he hg)).andThen fun t _ => .pure (some t)

theorem stays_emitAssignment (target : String) (operator : AssignOperator)
    (value : Option ValueType) (position : Position) :
    Stays (emitAssignment target operator value position) g := by
  refine .get_bind ?_
  cases g.find? target with
  | none => exact .report _ position
  | some slot =>
    have hstore : ∀ type g, Stays (do
        emitCoercion type slot.type position
        emit slot.storeCode) g := fun type g =>
      (Stays.emitCoercion type slot.type position).andThen fun _ _ => .emit _
    cases operator with
    | step step =>
      exact (Stays.emit slot.loadCode).andThen fun _ g' =>
        .of_yields (yields_emitStep target slot step.isIncrement position g')
    | set =>
      dsimp only
      split
      · exact hstore _ g
      · exact .report _ position
    | combine o =>
      dsimp only
      split
      · exact (Stays.spill _).andThen fun right _ => (Stays.emit _).andThen fun _ _ =>
          (Stays.spill _).andThen fun left _ => (Stays.emit _).andThen fun _ g' =>
            (Stays.of_yields (yields_emitBinary _ left _ position g')).andThen fun type g'' =>
              hstore type g''
      · exact .report _ position

theorem stays_emitPrint (type : ValueType) (newline : Bool) :
    Stays (emitPrint type newline) g := by
  have hend : ∀ g, Stays (emit [.callLibrary .printf]) g := fun _ => .emit _
  cases type with
  | boolean | string =>
    exact (Stays.of_quiet (quiet_emitText _)).andThen fun _ _ =>
      (Stays.emit _).andThen fun _ g' => hend g'
  | _ => exact (Stays.emit _).andThen fun _ g' => hend g'

theorem stays_emitZero (type : ValueType) : Stays (emitZero type) g :=
  .of_quiet (quiet_emitZero type)

theorem stays_emitReturn (value : Option (ValueType × Position)) :
    Stays (emitReturn value) g := by
  refine .get_bind ?_
  cases g.topLevelExit with
  | some exit => exact .emit _
  | none =>
    cases value with
    | none => exact (stays_emitZero _).andThen fun _ _ => .emit _
    | some value =>
      dsimp only
      split
      · exact (stays_emitZero _).andThen fun _ _ => .emit _
      · exact (Stays.emitCoercion _ _ _).andThen fun _ _ => .emit _

theorem stays_emitLoopJump (target : LoopLabels → Label) : Stays (emitLoopJump target) g := by
  refine .get_bind ?_
  cases g.loops with
  | cons labels _ => exact .emit _
  | nil =>
    dsimp only
    cases g.topLevelExit with
    | some exit => exact .emit _
    | none => exact (stays_emitZero _).andThen fun _ _ => .emit _

theorem stays_loopStep {Γ : Typings} (hg : g.Knows Γ) {step : Option Expr}
    (hs : ∀ e ∈ step, e.Typed Γ) : Stays (loopStep step) g := by
  cases step with
  | none =>
    exact (Stays.of_quiet (quiet_temporary .integer)).andThen fun slot _ =>
      (Stays.emit _).andThen fun _ _ => .pure slot
  | some e =>
    obtain ⟨t, ds, he⟩ := hs e rfl
    exact (Stays.of_yields (yields_expression he hg)).andThen fun _ _ =>
      (Stays.emitCoercion _ _ _).andThen fun _ _ => (Stays.emit _).andThen fun _ _ => .spill _

theorem stays_loopSlots {Γ : Typings} (hg : g.Knows Γ) (position : Position) :
    ∀ {e : Expr}, e.RangeTyped Γ → Stays (loopSlots position e) g
  | .group inner _, he => stays_loopSlots hg position (e := inner) he
  | .range a b excludesStop descending _ _, ⟨ha, hb, hstep⟩ => by
    obtain ⟨_, _, ha⟩ := ha
    obtain ⟨_, _, hb⟩ := hb
    refine (Stays.of_yields (yields_expression ha hg)).bind fun _ _ _ h₁ => ?_
    refine (Stays.emitCoercion _ _ _).bind fun _ _ _ h₂ => ?_
    refine (Stays.spill _).bind fun counter _ _ h₃ => ?_
    have hg₃ := h₃.knows (h₂.knows (h₁.knows hg))
    refine (Stays.of_yields (yields_expression hb hg₃)).bind fun _ _ _ h₄ => ?_
    refine (Stays.emitCoercion _ _ _).bind fun _ _ _ h₅ => ?_
    refine (Stays.spill _).bind fun limit _ _ h₆ => ?_
    have hg₆ := h₆.knows (h₅.knows (h₄.knows hg₃))
    exact (stays_loopStep hg₆ hstep).andThen fun step _ =>
      .pure (LoopSlots.mk counter limit step excludesStop descending)

theorem stays_emitLaps {number : Nat} {slots : LoopSlots} {body : Gen Unit} {copy : Slot}
    (hb : ∀ g', g.SameNames g' → Stays body g') :
    Stays (emitLaps number slots body copy) g :=
  (Stays.emit _).bind fun _ _ _ h =>
    (Stays.inLoop _ (hb _ ⟨h.scopes, h.globals⟩)).andThen fun _ _ => .emit _

/-- A declared name has a slot of its own, of the type that is told of it. -/
theorem grows_declare (hg : g.Rooted) (name : String) (type : ValueType) (mutable : Bool) :
    ∃ slot g', declare name type mutable g = .ok slot g' ∧ g.Extends g' ∧
      g'.diagnostics = g.diagnostics ∧ slot.type = type ∧ ∀ other, g'.find? other =
        if other = name then some ⟨slot.location, type, mutable⟩ else g.find? other := by
  obtain ⟨signatures, globals, ⟨scopes, used⟩, code, strings, floats, labels, loops, current,
    exit, diagnostics⟩ := g
  cases scopes with
  | nil => exact absurd rfl hg
  | cons inner outer =>
    refine ⟨_, _, rfl, ⟨rfl, rfl, rfl, rfl, rfl, rfl, rfl⟩, rfl, rfl, fun other => ?_⟩
    change ((Frame.find? ⟨inner.insert name _ :: outer, _⟩ other).or (globals.find? other)) =
      if other = name then _ else (Frame.find? ⟨inner :: outer, _⟩ other).or (globals.find? other)
    rw [Frame.find?, Frame.find?, List.findSome?_cons, List.findSome?_cons, NameMap.find?_insert]
    by_cases ho : other = name
    · rw [if_pos ho, if_pos ho]
      rfl
    · rw [if_neg ho, if_neg ho]

/-- A loop counts in a variable of type integer, one that is there or one of its own. -/
theorem stays_withCounter {Γ : Typings} (hr : g.Rooted) (hg : g.Knows Γ) (counter : String)
    {body : Slot → Gen Unit} (hb : ∀ slot g', g'.Rooted →
      g'.Knows (Γ.bind counter ⟨.integer, true⟩) → Stays (body slot) g') :
    Stays (withCounter counter body) g := by
  have hfresh : Stays (inScope do body (← declare counter .integer true)) g := by
    obtain ⟨slot, g', hd, hx, hdiag, -, hf⟩ := grows_declare (g := g.pushed)
      (List.cons_ne_nil _ _) counter .integer true
    refine Grows.inScope hr ?_
    refine Grows.bind ⟨slot, g', [], hd, hx, by rw [hdiag, List.append_nil]⟩ fun _ _ ha h => ?_
    cases hd.symm.trans ha
    refine (hb slot g' (h.rooted (List.cons_ne_nil _ _)) fun name k hk => ?_).grows
    rw [hf name]
    unfold Typings.bind at hk
    split at hk
    · next hn =>
      cases hk
      exact ⟨_, if_pos hn, rfl⟩
    · next hn =>
      rw [if_neg hn]
      exact hg name k hk
  refine .get_bind ?_
  cases hs : g.find? counter with
  | none => exact hfresh
  | some slot =>
    dsimp only
    split
    · next hc =>
      simp only [Bool.and_eq_true, decide_eq_true_eq] at hc
      refine hb slot g hr fun name k hk => ?_
      unfold Typings.bind at hk
      split at hk
      · next hn =>
        cases hk
        exact ⟨slot, by rw [hn, hs], by rw [Slot.typing, hc.1, hc.2]⟩
      · exact hg name k hk
    · exact hfresh

/-- A declared value is stored, or zero. -/
theorem stays_storeInitial (slot : Slot) (value : Option ValueType) (position : Position) :
    Stays (do
      match value with
      | some v => emitCoercion v slot.type position
      | none => emitZero slot.type
      emit slot.storeCode) g := by
  cases value with
  | none => exact (stays_emitZero _).andThen fun _ _ => .emit _
  | some v => exact (Stays.emitCoercion _ _ _).andThen fun _ _ => .emit _

/-- Behind a declaration, the name has the typing that is told of it. -/
theorem grows_emitDeclaration (hr : g.Rooted) (name : String) (constant : Bool)
    (type : Option DeclaredType) (value : Option ValueType) (position : Position) :
    ∃ g' ds, emitDeclaration none name constant type value position g = .ok () g' ∧
      g.Extends g' ∧ g'.diagnostics = g.diagnostics ++ ds ∧
      ∀ other, (g'.find? other).map Slot.typing =
        if other = name then some (declaredTyping constant type value)
        else (g.find? other).map Slot.typing := by
  obtain ⟨slot, g₁, hd, hx, hdiag, -, hf⟩ :=
    grows_declare hr name (declaredTyping constant type value).type !constant
  obtain ⟨ds, _, g₂, hs, -, h₂⟩ := stays_storeInitial slot value position (g := g₁)
  refine ⟨g₂, ds, ?_, hx.trans h₂.extends, by rw [h₂.diagnostics, hdiag], fun other => ?_⟩
  · exact (bind_of_ok _ hd).trans hs
  · rw [h₂.find?, hf]
    split <;> rfl

/-! ## Statements -/

theorem Stays.expression {Γ : Typings} (hg : g.Knows Γ) {e : Expr} (he : e.Typed Γ) :
    Stays (expression e) g := by
  obtain ⟨_, _, he⟩ := he
  exact .of_yields (yields_expression he hg)

/-- A declaration is generated, and known behind it. -/
theorem grows_declaration {Γ : Typings} (hr : g.Rooted) (hg : g.Knows Γ) {name : String}
    {constant : Bool} {type : Option DeclaredType} {value : Option Expr} {t : Option ValueType}
    (hv : OptionTypes Γ value t) (span : Span) :
    ∃ g' ds, statement (.declare name constant type value span) g = .ok () g' ∧ g.Extends g' ∧
      g'.diagnostics = g.diagnostics ++ ds ∧
      ∀ other, (g'.find? other).map Slot.typing =
        if other = name then some (declaredTyping constant type t)
        else (g.find? other).map Slot.typing := by
  obtain ⟨ds, w, g₁, hw, rfl, h₁⟩ : ∃ ds, Yields (· = t) ds (option value) g := by
    cases value with
    | none =>
      cases t with
      | none => exact ⟨[], .pure rfl⟩
      | some _ => exact hv.elim
    | some e =>
      cases t with
      | none => exact hv.elim
      | some t =>
        obtain ⟨ds, hv⟩ := hv
        exact ⟨ds, (yields_expression hv hg).finish fun t' _ ht _ => .pure (congrArg some ht)⟩
  obtain ⟨g₂, es, hd, h₂, hdiag, hf⟩ := grows_emitDeclaration (h₁.sameNames.rooted hr) name
    constant type w span.start
  refine ⟨g₂, ds ++ es, (bind_of_ok _ hw).trans hd, h₁.extends.trans h₂, ?_, fun other => ?_⟩
  · rw [hdiag, h₁.diagnostics, List.append_assoc]
  · rw [hf, h₁.find?]

theorem knows_bind {Γ : Typings} {name : String} {k : Typing} (hg : g.Knows Γ)
    (h : ∀ other, (g'.find? other).map Slot.typing =
      if other = name then some k else (g.find? other).map Slot.typing) :
    g'.Knows (Γ.bind name k) := by
  intro other l hl
  have ho := h other
  unfold Typings.bind at hl
  by_cases hn : other = name
  · rw [if_pos hn] at hl ho
    cases hl
    exact Option.map_eq_some_iff.mp ho
  · rw [if_neg hn] at hl ho
    obtain ⟨slot, hs, rfl⟩ := hg other l hl
    rw [hs] at ho
    exact Option.map_eq_some_iff.mp ho

mutual

/-- Code is generated for every statement that fits, and no name means anything else
behind it. -/
theorem stays_statement : ∀ (b : Stmt) {Γ : Typings} {g : Generator}, g.Rooted → g.Knows Γ →
    b.Fits Γ → Stays (statement b) g
  | .expression e, _, _, _, hg, h => (Stays.expression hg h).andThen fun _ _ => .pure ()
  | .declare .., _, _, _, _, h => h.elim
  | .assign target operator value span, _, _, _, hg, ⟨_, _, hv⟩ =>
    (stays_option hg hv).andThen fun t _ => stays_emitAssignment target operator t span.start
  | .print none newline _, _, g, _, _, _ => by
    change Stays (if newline then emit printNewline else Pure.pure ()) g
    split
    · exact .emit _
    · exact .pure ()
  | .print (some e) newline _, _, _, _, hg, h =>
    (Stays.expression hg (h e rfl)).andThen fun t _ => stays_emitPrint t newline
  | .block ⟨body, _⟩, _, _, hr, hg, h =>
    Grows.inScope hr (grows_statements body (List.cons_ne_nil _ _) hg h)
  | .branch c a b _, _, _, hr, hg, ⟨hc, ha, hb⟩ => by
    refine (Stays.of_quiet quiet_nextLabel).bind fun number _ _ h₁ => ?_
    refine (Stays.expression (h₁.knows hg) hc).bind fun _ _ _ h₂ => ?_
    refine (Stays.emit _).bind fun _ _ _ h₃ => ?_
    have h₃ := (h₁.trans h₂).trans h₃
    refine (stays_statement a (h₃.sameNames.rooted hr) (h₃.knows hg) ha).bind fun _ _ _ h₄ => ?_
    refine (Stays.emit _).bind fun _ _ _ h₅ => ?_
    have h₅ := (h₃.trans h₄).trans h₅
    exact (stays_statementOption b (h₅.sameNames.rooted hr) (h₅.knows hg) hb).andThen
      fun _ _ => .emit _
  | .whileLoop c b _, _, _, hr, hg, ⟨hc, hb⟩ => by
    refine (Stays.of_quiet quiet_nextLabel).bind fun number _ _ h₁ => ?_
    refine (Stays.emit _).bind fun _ _ _ h₂ => ?_
    refine (Stays.expression ((h₁.trans h₂).knows hg) hc).bind fun _ _ _ h₃ => ?_
    refine (Stays.emit _).bind fun _ g₄ _ h₄ => ?_
    have h₄ := ((h₁.trans h₂).trans h₃).trans h₄
    have hbody : ∀ loops, Stays (statement b) { g₄ with loops } := fun _ =>
      stays_statement b (h₄.sameNames.rooted hr) (h₄.knows hg) hb
    exact (Stays.inLoop _ (hbody _)).andThen fun _ _ => .emit _
  | .doWhile b c _, _, _, hr, hg, ⟨hb, hc⟩ => by
    refine (Stays.of_quiet quiet_nextLabel).bind fun number _ _ h₁ => ?_
    refine (Stays.emit _).bind fun _ g₂ _ h₂ => ?_
    have h₂ := h₁.trans h₂
    have hbody : ∀ loops, Stays (statement b) { g₂ with loops } := fun _ =>
      stays_statement b (h₂.sameNames.rooted hr) (h₂.knows hg) hb
    refine (Stays.inLoop _ (hbody _)).bind fun _ _ _ h₃ => ?_
    refine (Stays.emit _).bind fun _ _ _ h₄ => ?_
    exact (Stays.expression (((h₂.trans h₃).trans h₄).knows hg) hc).andThen fun _ _ => .emit _
  | .forLoop counter range b _, _, _, hr, hg, ⟨_, hrange, hb⟩ => by
    refine (Stays.of_quiet quiet_nextLabel).bind fun number _ _ h₁ => ?_
    refine (stays_loopSlots (h₁.knows hg) range.span.start hrange).bind fun slots _ _ h₂ => ?_
    have h₂ := h₁.trans h₂
    exact stays_withCounter (h₂.sameNames.rooted hr) (h₂.knows hg) counter
      fun copy _ hr' hg' => stays_emitLaps fun _ h =>
        stays_statement b (h.rooted hr') (h.knows hg') hb
  | .function _, _, _, _, _, _ => .pure ()
  | .return none _, _, _, _, _, _ => stays_emitReturn none
  | .return (some e) _, _, _, _, hg, h =>
    (Stays.expression hg (h e rfl)).andThen fun _ _ => stays_emitReturn _
  | .break _, _, _, _, _, _ => stays_emitLoopJump _
  | .continue _, _, _, _, _, _ => stays_emitLoopJump _

theorem stays_statementOption : ∀ (b : Option Stmt) {Γ : Typings} {g : Generator}, g.Rooted →
    g.Knows Γ → Stmt.ElseFits Γ b → Stays (statementOption b) g
  | none, _, _, _, _, _ => .pure ()
  | some b, _, _, hr, hg, h => stays_statement b hr hg h

theorem grows_statements : ∀ (body : List Stmt) {Γ : Typings} {g : Generator}, g.Rooted →
    g.Knows Γ → Stmt.FitAll Γ body → Grows (statements body) g
  | [], _, _, _, _, _ => (Stays.pure ()).grows
  | b :: rest, _, _, hr, hg, h => by
    rcases Stmt.fitAll_cons h with
      ⟨name, constant, type, value, span, t, rfl, hv, hrest⟩ | ⟨hb, hrest⟩
    · obtain ⟨g₁, ds, hrun, hx, hd, hf⟩ := grows_declaration hr hg hv span
      refine Grows.bind ⟨(), g₁, ds, hrun, hx, hd⟩ fun _ g' hg' h => ?_
      cases hrun.symm.trans hg'
      exact grows_statements rest (h.rooted hr) (knows_bind hg hf) hrest
    · obtain ⟨ds, _, g₁, hrun, -, h₁⟩ := stays_statement b hr hg hb
      refine Grows.bind ⟨(), g₁, ds, hrun, h₁.extends, h₁.diagnostics⟩ fun _ g' hg' _ => ?_
      cases hrun.symm.trans hg'
      exact grows_statements rest (h₁.sameNames.rooted hr) (h₁.knows hg) hrest

end

end Gen

end ScriptLang
