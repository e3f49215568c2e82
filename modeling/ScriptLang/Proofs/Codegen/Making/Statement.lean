import ScriptLang.Proofs.Codegen.Making.Operation

/-!
# The shapes of code for expressions and statements

All code that is generated for an expression or a statement has one of the shapes, from
any state with a scope to declare in.
-/

namespace ScriptLang

open Assembly

namespace Gen

variable {α β : Type} {cells : List Slot} {p : α → Stage → Prop} {s : Stage}

/-! ## Declarations, assignments and jumps -/

theorem shapes_emitFailedCall (cause : Cause) (type : ValueType) (position : Position) :
    Shaped cells (emitFailedCall cause type position) s :=
  (shapes_report cause position).andThen fun _ _ =>
    (shapes_emitZero type).andThen fun _ _ => .pure trivial

/-- The result is converted and stored in a variable. -/
theorem shapes_storeCoerced {slot : Slot} (h : s.generator.Names slot) (source target : ValueType)
    (position : Position) :
    Shaped cells (do
      emitCoercion source target position
      emit slot.storeCode) s :=
  (shapes_emitCoercion source target position).bind fun _ _ ht _ _ =>
    shapes_emit (Stage.admits_storeCode
      (((yields_emitCoercion source target position _).sameNames ht).names h))

/-- A declared value is stored, or zero. -/
theorem shapes_storeInitial {slot : Slot} (h : s.generator.Names slot) (value : Option ValueType)
    (position : Position) :
    Shaped cells (do
      match value with
      | some v => emitCoercion v slot.type position
      | none => emitZero slot.type
      emit slot.storeCode) s := by
  cases value with
  | some v => exact shapes_storeCoerced h v slot.type position
  | none =>
    exact (shapes_emitZero _).bind fun _ t ht _ _ =>
      shapes_emit (Stage.admits_storeCode (((quiet_emitZero _).sameNames ht).names h))

theorem shapes_emitDeclaration (cell : Option Slot) (hcell : ∀ slot ∈ cell, slot ∈ cells)
    (name : String) (constant : Bool) (type : Option DeclaredType) (value : Option ValueType)
    (position : Position) :
    Shaped cells (emitDeclaration cell name constant type value position) s := by
  cases cell with
  | some slot =>
    have hrebind : Shapes cells (fun _ t => t.generator.Names slot)
        (modify fun g => { g with globals := g.globals.insert name slot } : Gen Unit) s := by
      rintro - _ _ ⟨⟩
      refine ⟨[], _, Array.appendList_nil.symm, .rebind name (hcell slot rfl), .inr ⟨name, ?_⟩⟩
      exact (NameMap.find?_insert _ _ _ _).trans (if_pos rfl)
    exact hrebind.bind fun _ _ _ _ h => shapes_storeInitial h value position
  | none => exact (shapes_declare name _ !constant).bind fun _ _ _ _ h =>
    shapes_storeInitial h value position

theorem shapes_emitAssignment (target : String) (operator : AssignOperator)
    (value : Option ValueType) (position : Position) :
    Shaped cells (emitAssignment target operator value position) s := by
  refine .bindGet ?_
  cases hf : s.generator.find? target with
  | none => exact shapes_report _ position
  | some slot =>
    have hslot := Generator.names_of_find? hf
    cases operator with
    | step step =>
      exact (shapes_emit (Stage.admits_loadCode (.inl hslot))).bind fun _ t ht _ _ =>
        shapes_emitStep target (((quiet_emit _).sameNames ht).names hslot) _ position
    | set =>
      dsimp only
      split
      · exact shapes_storeCoerced hslot _ _ position
      · exact shapes_report _ position
    | combine o =>
      dsimp only
      split
      · refine (shapes_spill _).bind fun right t₁ h₁ _ hright => ?_
        have hslot := ((yields_spill _ _).sameNames h₁).names hslot
        refine (shapes_emit (Stage.admits_loadCode (.inl hslot))).bind fun _ t₂ h₂ b₂ _ => ?_
        have hslot := ((quiet_emit _).sameNames h₂).names hslot
        refine (shapes_spill _).bind fun left t₃ h₃ b₃ hleft => ?_
        have hslot := ((yields_spill _ _).sameNames h₃).names hslot
        have hright := (b₂.trans b₃).allotted.subset hright.2
        refine (shapes_emit (Stage.admits_loadCode (.of_allotted hright))).bind
          fun _ t₄ h₄ b₄ _ => ?_
        have hslot := ((quiet_emit _).sameNames h₄).names hslot
        refine (shapes_emitBinary _ (b₄.allotted.subset hleft.2) _ position).bind
          fun type t₅ h₅ _ _ => ?_
        have hslot := ((yields_emitBinary _ left _ position _).sameNames h₅).names hslot
        exact shapes_storeCoerced hslot type slot.type position
      · exact shapes_report _ position

theorem shapes_emitPrint (type : ValueType) (newline : Bool) :
    Shaped cells (emitPrint type newline) s := by
  have hend : ∀ t, Shaped cells (emit [.callLibrary .printf]) t := fun t =>
    shapes_emit (by simp [Stage.admits_iff, Instruction.Level])
  cases type with
  | boolean | string =>
    exact (shapes_emitText _).andThen fun _ t => (shapes_emit (by
      simp [Stage.admits_iff, Instruction.Level, Stage.Defines.format])).andThen fun _ u => hend u
  | _ =>
    exact (shapes_emit (by
      simp [Stage.admits_iff, Instruction.Level, Stage.Defines.format])).andThen fun _ t => hend t

theorem shapes_jump {l : Label} (h : s.generator.Exit l) : Shaped cells (emit [.jump l]) s :=
  shapes_emit (by simp [Stage.admits_iff, Instruction.Level, h])

/-- Zero, or a converted value, is returned. -/
theorem shapes_leaving {x : Gen Unit} (hx : Shaped cells x s) :
    Shaped cells (do
      x
      emit [.jump s.generator.epilogue]) s :=
  hx.bind fun _ t _ hbefore _ => shapes_jump (by
    rw [show s.generator.epilogue = t.generator.epilogue by
      rw [Generator.epilogue, Generator.epilogue, hbefore.current]]
    exact .epilogue)

theorem shapes_emitReturn (value : Option (ValueType × Position)) :
    Shaped cells (emitReturn value) s := by
  refine .bindGet ?_
  cases he : s.generator.topLevelExit with
  | some exit => exact shapes_jump (.topLevel he)
  | none =>
    cases value with
    | none => exact shapes_leaving (shapes_emitZero _)
    | some value =>
      dsimp only
      split
      · exact shapes_leaving (shapes_emitZero _)
      · exact shapes_leaving (shapes_emitCoercion _ _ _)

/-- A jump to one of the labels of the innermost loop. -/
theorem shapes_emitLoopJump {target : LoopLabels → Label}
    (h : ∀ {g : Generator} {labels rest}, g.loops = labels :: rest → g.Exit (target labels)) :
    Shaped cells (emitLoopJump target) s := by
  refine .bindGet ?_
  cases hl : s.generator.loops with
  | cons labels rest => exact shapes_jump (h hl)
  | nil =>
    dsimp only
    cases he : s.generator.topLevelExit with
    | some exit => exact shapes_jump (.topLevel he)
    | none => exact shapes_leaving (shapes_emitZero _)

theorem shapes_emitStepCheck :
    Shapes cells (fun slot t => ⟨slot, .temporary⟩ ∈ t.allotted) emitStepCheck s := by
  have hcheck : ∀ i ∈ [Instruction.test .rax, .jumpIf .e (.trap .zeroStep),
      .jumpIf .s (.trap .negativeStep)], s.Admits i := by
    simp [Stage.admits_iff, Instruction.Level, Generator.Exit.trap]
  exact (shapes_emit hcheck).andThen fun _ t => (shapes_spill _).weaken fun _ _ h => h.2

/-! ## Branches and loops, by their parts -/

/-- The code of a branch. -/
def emitBranch (condition : Gen ValueType) (thenBody elseBody : Gen Unit) : Gen Unit := do
  let number ← nextLabel
  let type ← condition
  emit (type.jumpIfFalse (.numbered .otherwise number))
  thenBody
  emit [.jump (.numbered .endIf number), .label (.numbered .otherwise number)]
  elseBody
  emit [.label (.numbered .endIf number)]

/-- The code of a loop that tests in front of its laps. -/
def emitWhile (condition : Gen ValueType) (body : Gen Unit) : Gen Unit := do
  let number ← nextLabel
  let start : Label := .numbered .whileStart number
  let done : Label := .numbered .whileEnd number
  emit [.label start]
  let type ← condition
  emit (type.jumpIfFalse done)
  inLoop ⟨start, done⟩ body
  emit [.jump start, .label done]

/-- The code of a loop that tests behind its laps. -/
def emitDoWhile (body : Gen Unit) (condition : Gen ValueType) : Gen Unit := do
  let number ← nextLabel
  let start : Label := .numbered .doStart number
  let test : Label := .numbered .doCondition number
  let done : Label := .numbered .doEnd number
  emit [.label start]
  inLoop ⟨test, done⟩ body
  emit [.label test]
  let type ← condition
  emit (type.truthCode ++ [.test .rax, .jumpIf .ne start, .label done])

/-- The code of a loop over a range. -/
def emitFor (counter : String) (bounds : Gen LoopSlots) (body : Gen Unit) : Gen Unit := do
  let number ← nextLabel
  let slots ← bounds
  withCounter counter (emitLaps number slots body)

section

variable (counter : String) (e : Expr) (a b : Stmt) (elseBody : Option Stmt) (span : Span)

theorem statement_branch : statement (.branch e a elseBody span) =
    emitBranch (expression e) (statement a) (statementOption elseBody) := rfl

theorem statement_whileLoop : statement (.whileLoop e b span) =
    emitWhile (expression e) (statement b) := rfl

theorem statement_doWhile : statement (.doWhile b e span) =
    emitDoWhile (statement b) (expression e) := rfl

theorem statement_forLoop : statement (.forLoop counter e b span) =
    emitFor counter (loopSlots e.span.start e) (statement b) := rfl

end

/-! ## Scopes, branches and loops -/

theorem Shapes.inScope {x : Gen α} (hx : Shaped cells x s.pushed) :
    Shaped cells (inScope x) s := by
  intro _ a g h
  obtain ⟨_, g', hx', hg⟩ := bind_ok.mp (show (x >>= fun a => (do
    modifyFrame .pop
    return a)) s.pushed.generator = _ from h)
  cases hg
  obtain ⟨c, allotted, hc, hm, -⟩ := hx (List.cons_ne_nil _ _) a g' hx'
  exact ⟨c, allotted, hc, .scope hm, trivial⟩

theorem Shapes.loop {body : Gen Unit} {labels : LoopLabels}
    (hb : Shaped cells body (s.looping labels)) (hs : s.generator.Rooted) {g : Generator}
    (h : inLoop labels body s.generator = .ok () g) :
    ∃ (t : Stage) (c : List Instruction), Makes cells (s.looping labels) c t ∧
      t.generator.code = s.generator.code ++ c ∧ t.generator.Rooted ∧ g = t.looped.generator := by
  change (body >>= fun _ => modify fun g => { g with loops := g.loops.tail })
    (s.looping labels).generator = _ at h
  obtain ⟨_, t, c, hm, -, hc, hr, ht⟩ := hb.run hs h
  cases ht
  exact ⟨t, c, hm, hc, hr, rfl⟩

theorem Shapes.runLoop {body : Gen Unit} {labels : LoopLabels}
    (hb : Shaped cells body (s.looping labels)) (hs : s.generator.Rooted) {f : Unit → Gen β}
    {b : β} {g : Generator} (h : (inLoop labels body >>= f) s.generator = .ok b g) :
    ∃ (t : Stage) (c : List Instruction), Makes cells (s.looping labels) c t ∧
      t.generator.code = s.generator.code ++ c ∧ t.generator.Rooted ∧
      f () t.looped.generator = .ok b g := by
  obtain ⟨_, g', h', h⟩ := bind_ok.mp h
  obtain ⟨t, c, hm, hc, hr, rfl⟩ := Shapes.loop hb hs h'
  exact ⟨t, c, hm, hc, hr, h⟩

theorem shapes_emitBranch {condition : Gen ValueType} {thenBody elseBody : Gen Unit}
    (hc : ∀ t, Shaped cells condition t) (ht : ∀ t, Shaped cells thenBody t)
    (he : ∀ t, Shaped cells elseBody t) :
    Shaped cells (emitBranch condition thenBody elseBody) s := by
  rintro hs ⟨⟩ g hx
  obtain ⟨type, t, c, hm, -, hc, hr, hx⟩ := (hc s.numbered).run hs hx
  obtain ⟨_, u, d, hm', -, hd, hr, hx⟩ := (ht (t.emitting _)).run hr hx
  obtain ⟨_, v, e, hm'', -, he, -, hx⟩ := (he (u.emitting _)).run hr hx
  cases hx
  have hmade := @Makes.branch cells _ _ _ _ _ _ _ type hm hm'.ofEmitting hm''.ofEmitting
  refine ⟨_, _, Array.ext' ?_, hmade.thenEmitting _, trivial⟩
  simp [he, hd, hc, Stage.emitting, Stage.numbered, Stage.number]

theorem shapes_emitWhile {condition : Gen ValueType} {body : Gen Unit}
    (hc : ∀ t, Shaped cells condition t) (hb : ∀ t, Shaped cells body t) :
    Shaped cells (emitWhile condition body) s := by
  rintro hs ⟨⟩ g hx
  obtain ⟨type, t, c, hm, -, hc, hr, hx⟩ := (hc (s.numbered.emitting _)).run hs hx
  obtain ⟨u, d, hm', hd, -, hx⟩ := Shapes.runLoop (s := t.emitting _) (hb _) hr hx
  cases hx
  have hmade := @Makes.whileLoop cells _ _ _ _ _ type (hm.ofEmitting.thenEmitting _) hm'
  refine ⟨_, _, Array.ext' ?_, hmade.thenEmitting _, trivial⟩
  simp [hd, hc, Stage.emitting, Stage.numbered, Stage.number, Stage.looped]

theorem shapes_emitDoWhile {condition : Gen ValueType} {body : Gen Unit}
    (hc : ∀ t, Shaped cells condition t) (hb : ∀ t, Shaped cells body t) :
    Shaped cells (emitDoWhile body condition) s := by
  rintro hs ⟨⟩ g hx
  obtain ⟨t, c, hm, hc', hr, hx⟩ := Shapes.runLoop (s := s.numbered.emitting _) (hb _) hs hx
  obtain ⟨type, u, d, hm', -, hd, -, hx⟩ := (hc (t.looped.emitting _)).run hr hx
  cases hx
  have hm := Makes.ofEmitting (s := s.numbered.looping _) hm
  have hmade := @Makes.doWhile cells _ _ _ _ _ type hm hm'.ofEmitting
  refine ⟨_, _, Array.ext' ?_, hmade.thenEmitting _, trivial⟩
  simp [hd, hc', Stage.emitting, Stage.numbered, Stage.number, Stage.looped]

/-- The bounds of a `for` are kept in slots: the counter, which laps step, and two more. -/
def Bounds (cells : List Slot) (x : Gen LoopSlots) (s : Stage) : Prop :=
  s.generator.Rooted → ∀ slots g, x s.generator = .ok slots g →
    ∃ (t u : Stage) (c d : List Instruction), Makes cells s c t ∧
      slots.counter = t.fresh .integer ∧ Makes cells (t.handing .integer .counter) d u ∧
      ⟨slots.limit, .temporary⟩ ∈ u.allotted ∧ ⟨slots.step, .temporary⟩ ∈ u.allotted ∧
      u.generator.Rooted ∧ u.generator = g ∧
      g.code = s.generator.code ++ (c ++ slots.counter.storeCode ++ d)

theorem bounds_range {start stop : Gen ValueType} {step : Gen Slot}
    (ha : ∀ t, Shaped cells start t) (hb : ∀ t, Shaped cells stop t)
    (hc : ∀ t, Shapes cells (fun slot u => ⟨slot, .temporary⟩ ∈ u.allotted) step t)
    (p q : Position) (excludesStop descending : Bool) :
    Bounds cells (do
      emitCoercion (← start) .integer p
      let counter ← spill .integer
      emitCoercion (← stop) .integer q
      let limit ← spill .integer
      return ⟨counter, limit, ← step, excludesStop, descending⟩) s := by
  intro hs slots g hx
  obtain ⟨type, t₁, c₁, hm₁, -, hc₁, hr, hx⟩ := (ha s).run hs hx
  have hcoercion : Shaped cells (emitCoercion type .integer p) t₁ := shapes_emitCoercion _ _ p
  obtain ⟨_, t, c₂, hm₂, -, hc₂, hr, hx⟩ := hcoercion.run hr hx
  -- The rest is generated behind the slot of the counter, which is filled by then.
  have hrest : Shapes cells (fun slots u => slots.counter = t.fresh .integer ∧
      ⟨slots.limit, .temporary⟩ ∈ u.allotted ∧ ⟨slots.step, .temporary⟩ ∈ u.allotted) (do
        emitCoercion (← stop) .integer q
        let limit ← spill .integer
        return LoopSlots.mk (t.fresh .integer) limit (← step) excludesStop descending)
      ((t.handing .integer .counter).emitting (t.fresh .integer).storeCode) :=
    (hb _).andThen fun _ _ => (shapes_emitCoercion _ _ _).andThen fun _ _ =>
      (shapes_spill _).bind fun limit _ _ _ hlimit => (hc _).bind fun step _ _ hbefore hstep =>
        .pure ⟨rfl, hbefore.allotted.subset hlimit.2, hstep⟩
  obtain ⟨d, allotted, hd, hm₃, hcounter, hlimit, hstep⟩ := hrest hr slots g hx
  refine ⟨t, ⟨g, allotted⟩, c₁ ++ c₂, d, hm₁.append hm₂, hcounter, hm₃.ofEmitting, hlimit, hstep,
    (hm₃.before hr).rooted hr, rfl, Array.ext' ?_⟩
  simp [hd, hc₂, hc₁, Stage.emitting, Stage.handing, hcounter]

/-- Up to this state laps were made that count in a variable which the body sees. -/
def Laps (cells : List Slot) (number : Nat) (slots : LoopSlots) (s : Stage) (g : Generator) :
    Prop :=
  ∃ (copy : Slot) (t u : Stage) (leave : Stage → Stage) (e : List Instruction),
    CountsIn s copy t leave ∧
    Makes cells (t.looping ⟨.numbered .forNext number, .numbered .forEnd number⟩) e u ∧
    g = ((leave u.looped).emitting (lapTail number slots)).generator ∧
    (leave u.looped).generator.code = s.generator.code ++ (lapHead number slots copy ++ e)

/-- The counter is put in a variable, and what is generated with it comes in between. -/
theorem run_withCounter {body : Slot → Gen Unit} {counter : String} {g : Generator}
    (h : withCounter counter body s.generator = .ok () g) :
    ∃ (copy : Slot) (t : Stage) (leave : Stage → Stage) (g' : Generator), CountsIn s copy t leave ∧
      body copy t.generator = .ok () g' ∧
      ∀ allotted, g = (leave ⟨g', allotted⟩).generator := by
  have hown : inScope (do body (← declare counter .integer true)) s.generator = .ok () g →
      ∃ (copy : Slot) (t : Stage) (leave : Stage → Stage) (g' : Generator),
        CountsIn s copy t leave ∧ body copy t.generator = .ok () g' ∧
        ∀ allotted, g = (leave ⟨g', allotted⟩).generator := by
    intro h
    obtain ⟨_, g', h', hg⟩ := bind_ok.mp (show (body (s.fresh .integer) >>=
      fun _ => modifyFrame .pop)
        (s.pushed.declaring counter .integer true).generator = _ from h)
    cases hg
    exact ⟨_, _, _, g', .own counter, h', fun _ => rfl⟩
  obtain ⟨_, _, ⟨⟩, h⟩ := bind_ok.mp h
  cases hf : s.generator.find? counter with
  | none =>
    rw [hf] at h
    exact hown h
  | some slot =>
    rw [hf] at h
    dsimp only at h
    split at h
    · next hc =>
      simp only [Bool.and_eq_true, decide_eq_true_eq] at hc
      exact ⟨slot, s, id, g, .there (Generator.names_of_find? hf) hc.2, h, fun _ => rfl⟩
    · exact hown h

/-- The head of a lap, the body and the end of a lap follow one another. -/
theorem run_laps {body : Gen Unit} (hb : ∀ t, Shaped cells body t) {number : Nat}
    {slots : LoopSlots} {copy : Slot} (hs : s.generator.Rooted) {g : Generator}
    (h : emitLaps number slots body copy s.generator = .ok () g) :
    ∃ (t : Stage) (e : List Instruction),
      Makes cells (s.looping ⟨.numbered .forNext number, .numbered .forEnd number⟩) e t ∧
      inLoop ⟨.numbered .forNext number, .numbered .forEnd number⟩ body
        (s.emitting (lapHead number slots copy)).generator = .ok () t.looped.generator ∧
      t.generator.code = s.generator.code ++ (lapHead number slots copy ++ e) ∧
      g = (t.looped.emitting (lapTail number slots)).generator := by
  obtain ⟨⟨⟩, g', hloop, hx⟩ := bind_ok.mp
    (show (inLoop ⟨.numbered .forNext number, .numbered .forEnd number⟩ body >>= fun _ =>
      emit (lapTail number slots)) (s.emitting (lapHead number slots copy)).generator = _ from h)
  obtain ⟨t, e, hm, he, -, rfl⟩ := Shapes.loop (s := s.emitting _) (hb _) hs hloop
  cases hx
  exact ⟨t, e, Makes.ofEmitting (s := s.looping _) hm, hloop, Array.ext' (by
    simp [he, Stage.emitting]), rfl⟩

theorem laps_withCounter {body : Gen Unit} (hb : ∀ t, Shaped cells body t) (number : Nat)
    (slots : LoopSlots) (counter : String) (hs : s.generator.Rooted) {g : Generator}
    (h : withCounter counter (emitLaps number slots body) s.generator = .ok () g) :
    Laps cells number slots s g := by
  obtain ⟨copy, t, leave, g', hcounts, h', hg⟩ := run_withCounter h
  obtain ⟨u, e, hm, -, he, rfl⟩ := run_laps hb (hcounts.rooted hs) h'
  refine ⟨copy, t, u, leave, e, hcounts, hm, ?_, ?_⟩
  · rw [hg u.allotted]
    cases hcounts <;> rfl
  · cases hcounts <;> exact he

theorem shapes_emitFor {bounds : Gen LoopSlots} {body : Gen Unit}
    (ha : ∀ t, Bounds cells bounds t) (hb : ∀ t, Shaped cells body t) (counter : String) :
    Shaped cells (emitFor counter bounds body) s := by
  rintro hs ⟨⟩ g hx
  obtain ⟨_, _, ⟨⟩, hx⟩ := bind_ok.mp hx
  obtain ⟨slots, g₁, hx₁, hx⟩ := bind_ok.mp hx
  obtain ⟨t, u, c, d, hm, hcounter, hm', hlimit, hstep, hr, rfl, hcode⟩ :=
    ha s.numbered hs slots g₁ hx₁
  obtain ⟨copy, v, w, leave, e, hcounts, hm'', rfl, he⟩ :=
    laps_withCounter hb _ slots counter hr hx
  refine ⟨_, _, Array.ext' ?_,
    (Makes.forLoop hm hcounter hm' hlimit hstep hcounts hm'').thenEmitting _, trivial⟩
  simp [Stage.emitting, he, hcode, Stage.numbered, Stage.number]

theorem shapes_call {callee symbol : String} {f : Function} {slots : List Slot}
    (hf : s.generator.signatures.find? callee = some ⟨symbol, f⟩)
    (hs : ∀ slot ∈ slots, ⟨slot, .temporary⟩ ∈ s.allotted) :
    Shaped cells (emit (callCode symbol slots)) s := by
  rintro - _ _ ⟨⟩
  exact ⟨_, _, rfl, (Makes.call hf hs).thenEmitting _, trivial⟩

/-! ## Trees -/

mutual

/-- The code of every expression has one of the shapes. -/
theorem shapes_expression : ∀ (e : Expr) (s : Stage), Shaped cells (expression e) s
  | .integer n _, s => by
    refine (shapes_emit ?_).andThen fun _ _ => .pure trivial
    unfold constantCode
    split <;> simp [Stage.admits_iff, Instruction.Level]
  | .float x _, s => by
    refine (shapes_internFloat _).bind fun l t _ _ hl => ?_
    refine (shapes_emit ?_).andThen fun _ _ => .pure trivial
    simp [Stage.admits_iff, Instruction.Level, hl]
  | .boolean b _, s =>
    (shapes_emit (by simp [Stage.admits_iff, Instruction.Level])).andThen fun _ _ => .pure trivial
  | .string text _, s => by
    refine (shapes_internString text).bind fun l t _ _ hl => ?_
    refine (shapes_emit ?_).andThen fun _ _ => .pure trivial
    simp [Stage.admits_iff, Instruction.Level, hl]
  | .name n span, s =>
    (shapes_resolve n span.start).bind fun slot t _ _ hslot =>
      (shapes_emit (Stage.admits_loadCode (.inl hslot))).andThen fun _ _ => .pure trivial
  | .group inner _, s => shapes_expression inner s
  | .binary operator left right span, s =>
    (shapes_expression left s).andThen fun type t =>
      (shapes_spill type).bind fun slot u _ _ hslot =>
        (shapes_expression right u).bind fun _ _ _ hbefore _ =>
          shapes_emitBinary operator (hbefore.allotted.subset hslot.2) _ span.start
  | .unary (.step step) operand span, s => by
    rw [expression]
    cases operand.ungroup.name? with
    | some name => exact shapes_emitStepValue step name span.start
    | none => exact shapes_expression operand s
  | .unary .not operand span, s | .unary .negate operand span, s
  | .unary .plus operand span, s =>
    (shapes_expression operand s).andThen fun type _ => shapes_emitUnary _ type span.start
  | .call callee arguments span, s => by
    rw [expression]
    refine .bindGet ?_
    cases hf : s.generator.signatures.find? callee with
    | none =>
      exact (shapes_discarded arguments s).andThen fun _ _ => shapes_emitFailedCall _ _ _
    | some signature =>
      dsimp only
      split
      · refine (shapes_stored arguments signature.function.parameters s).bind
          fun slots t _ hbefore hslots => ?_
        refine (shapes_call (by rw [hbefore.signatures, hf]) hslots).andThen fun _ u => ?_
        split
        · exact (shapes_emit (by simp [Stage.admits_iff, Instruction.Level])).andThen
            fun _ _ => .pure trivial
        · exact .pure trivial
      · exact (shapes_discarded arguments s).andThen fun _ _ => shapes_emitFailedCall _ _ _
  | .range start stop _ _ _ _, s =>
    (shapes_expression start s).andThen fun type t =>
      (shapes_emitCoercion type _ _).andThen fun _ u =>
        (shapes_spill _).bind fun first v _ _ hfirst =>
          (shapes_expression stop v).bind fun type w _ hw _ =>
            (shapes_emitCoercion type _ _).bind fun _ z _ hz _ => by
              have hlow := addresses_of_allotted ((hw.trans hz).allotted.subset hfirst.2)
              refine (shapes_emit ?_).andThen fun _ _ => .pure trivial
              simp [Stage.admits_iff, Instruction.Level, hlow]
  | .run ⟨body, _⟩ _, s => by
    rw [expression]
    refine (Shapes.inScope (shapes_lastValue body s.pushed)).andThen fun type t => ?_
    cases type with
    | some type => exact .pure trivial
    | none =>
      exact (shapes_emit (by simp [Stage.admits_iff, Instruction.Level])).andThen
        fun _ _ => .pure trivial

/-- The code of expressions that are evaluated for their effects. -/
theorem shapes_discarded : ∀ (es : List Expr) (s : Stage), Shaped cells (discarded es) s
  | [], _ => .pure trivial
  | e :: es, s => (shapes_expression e s).andThen fun _ t => shapes_discarded es t

/-- The code of arguments; their values are kept in slots. -/
theorem shapes_stored : ∀ (es : List Expr) (ps : List Parameter) (s : Stage),
    Shapes cells (fun slots t => ∀ slot ∈ slots, ⟨slot, .temporary⟩ ∈ t.allotted) (stored es ps) s
  | e :: es, p :: ps, s => by
    refine (shapes_expression e s).andThen fun type t => ?_
    refine (shapes_emitCoercion type _ _).andThen fun _ u => ?_
    refine (shapes_spill _).bind fun slot v _ _ hslot => ?_
    refine (shapes_stored es ps v).bind fun slots w _ hbefore hslots => .pure ?_
    exact List.forall_mem_cons.mpr ⟨hbefore.allotted.subset hslot.2, hslots⟩
  | [], _, _ | _ :: _, [], _ => .pure (List.forall_mem_nil _)

theorem shapes_lastValue : ∀ (body : List Stmt) (s : Stage), Shaped cells (lastValue body) s
  | [], _ => .pure trivial
  | b :: rest, s => by
    have hb := shapes_statement b s
    have hrest := shapes_lastValue rest
    cases b with
    | expression e =>
      cases rest with
      | nil => exact (shapes_expression e s).map
      | cons => exact hb.andThen fun _ t => hrest t
    | _ => exact hb.andThen fun _ t => hrest t

theorem shapes_option : ∀ (e : Option Expr) (s : Stage), Shaped cells (option e) s
  | none, _ => .pure trivial
  | some e, s => (shapes_expression e s).map

theorem bounds_loopSlots (position : Position) : ∀ (e : Expr) (s : Stage),
    Bounds cells (loopSlots position e) s
  | .group inner _, s => bounds_loopSlots position inner s
  | .range start stop excludesStop descending step _, _ =>
    bounds_range (fun t => shapes_expression start t) (fun t => shapes_expression stop t)
      (fun t => shapes_loopStep step t) _ _ excludesStop descending
  | .integer .., _ | .float .., _ | .boolean .., _ | .string .., _ | .name .., _
  | .binary .., _ | .unary .., _ | .call .., _ | .run .., _ => by
    rintro - _ _ ⟨⟩

theorem shapes_loopStep : ∀ (e : Option Expr) (s : Stage),
    Shapes cells (fun slot t => ⟨slot, .temporary⟩ ∈ t.allotted) (loopStep e) s
  | some e, s =>
    (shapes_expression e s).andThen fun type _ =>
      (shapes_emitCoercion type _ _).andThen fun _ _ => shapes_emitStepCheck
  | none, s => by
    rintro - _ _ ⟨⟩
    exact ⟨_, _, rfl, (Makes.fill (.constant 1 rfl)).thenEmitting _, List.mem_cons_self⟩

/-- The code of every statement has one of the shapes. -/
theorem shapes_statement : ∀ (b : Stmt) (s : Stage), Shaped cells (statement b) s
  | .expression e, s => (shapes_expression e s).andThen fun _ _ => .pure trivial
  | .declare name constant type value span, s =>
    (shapes_option value s).andThen fun value _ =>
      shapes_emitDeclaration none nofun name constant type value span.start
  | .assign target operator value span, s =>
    (shapes_option value s).andThen fun value _ =>
      shapes_emitAssignment target operator value span.start
  | .print none newline _, s => by
    rw [statement]
    split
    · exact shapes_emit (by
        simp [printNewline, Stage.admits_iff, Instruction.Level, Stage.Defines.newline])
    · exact .pure trivial
  | .print (some e) newline _, s =>
    (shapes_expression e s).andThen fun type _ => shapes_emitPrint type newline
  | .block ⟨body, _⟩, s => .inScope (shapes_statements body s.pushed)
  | .branch condition thenBody elseBody _, s => by
    rw [statement_branch]
    exact shapes_emitBranch (fun t => shapes_expression condition t)
      (fun t => shapes_statement thenBody t) (fun t => shapes_statementOption elseBody t)
  | .whileLoop condition body _, s => by
    rw [statement_whileLoop]
    exact shapes_emitWhile (fun t => shapes_expression condition t) fun t => shapes_statement body t
  | .doWhile body condition _, s => by
    rw [statement_doWhile]
    exact shapes_emitDoWhile (fun t => shapes_expression condition t)
      fun t => shapes_statement body t
  | .forLoop counter range body _, s => by
    rw [statement_forLoop]
    exact shapes_emitFor (fun t => bounds_loopSlots range.span.start range t)
      (fun t => shapes_statement body t) counter
  | .function _, _ => .pure trivial
  | .return none _, _ => shapes_emitReturn none
  | .return (some e) _, s =>
    (shapes_expression e s).andThen fun type _ => shapes_emitReturn (some (type, e.span.start))
  | .break _, _ => shapes_emitLoopJump .done
  | .continue _, _ => shapes_emitLoopJump .again

theorem shapes_statementOption : ∀ (b : Option Stmt) (s : Stage),
    Shaped cells (statementOption b) s
  | none, _ => .pure trivial
  | some b, s => shapes_statement b s

theorem shapes_statements : ∀ (body : List Stmt) (s : Stage), Shaped cells (statements body) s
  | [], _ => .pure trivial
  | b :: rest, s => (shapes_statement b s).andThen fun _ t => shapes_statements rest t

end

end Gen

end ScriptLang
