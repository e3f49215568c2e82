import ScriptLang.Proofs.Codegen.Parallel.Operation
import ScriptLang.Proofs.Codegen.Pool

/-!
# Operators and the pool

Conversions, operators and the ends of statements name no floats. Only the step of a float
names one: it adds or subtracts the 1 of the pool.
-/

namespace ScriptLang

open Assembly Generator

namespace Gen

variable {pool : Array UInt64} {P : Nat → Instruction → Nat → Prop} {g : Generator}

namespace Dry

/-! ## Results -/

theorem emitZero (type : ValueType) : Dry (emitZero type) := by
  cases type with
  | float | range | integer | boolean => exact emitFixed (by simp)
  | string =>
    exact internString_bind fun n => emit (by simp [Instruction.labels, Instruction.references])

theorem spill (type : ValueType) : Dry (spill type) :=
  (temporary type).bind fun slot => (emitFixed fixedCode_storeCode).bind fun _ => pure slot

theorem emitCoercion (source target : ValueType) (position : Position) :
    Dry (emitCoercion source target position) := by
  refine ite (pure _) ?_
  have hreported := (report (.typeMatch target.declaredType.name source.name) position).bind
    fun _ => emitZero target
  cases source <;> cases target <;> first | exact hreported | exact emitFixed (by simp)

theorem emitFormatted (format : Format) (type : ValueType) {arguments : Slot → List Instruction}
    (h : ∀ slot, FixedCode (arguments slot)) : Dry (emitFormatted format type arguments) :=
  (spill type).bind fun value => (temporary .string).bind fun _ =>
    (emitFixed (by simp)).bind fun _ => (emitFixed (h value)).bind fun _ => emitFixed (by simp)

theorem emitText (type : ValueType) : Dry (emitText type) := by
  cases type with
  | string => exact pure _
  | boolean => exact emitFixed (by simp)
  | integer | float | range => exact emitFormatted _ _ fun _ => by simp

theorem resolve (name : String) (position : Position) : Dry (resolve name position) := by
  refine get_bind fun g => ?_
  cases g.find? name with
  | some slot => exact pure slot
  | none =>
    exact (report _ position).bind fun _ => (declare name .integer true).bind fun slot =>
      (emitFixed (by simp)).bind fun _ => pure slot

theorem emitFailedCall (cause : Cause) (type : ValueType) (position : Position) :
    Dry (emitFailedCall cause type position) :=
  (report cause position).bind fun _ => (emitZero type).bind fun _ => pure type

/-! ## Operators -/

theorem emitJoin (left : Slot) (right : ValueType) : Dry (emitJoin left right) :=
  (emitText right).bind fun _ => (spill .string).bind fun _ =>
    (emitFixed fixedCode_loadCode).bind fun _ => (emitText left.type).bind fun _ =>
      (spill .string).bind fun _ => (temporary .integer).bind fun _ =>
        (temporary .string).bind fun _ => emitFixed (by simp)

theorem emitIntegerArithmetic (operator : Arithmetic) (left : Slot) :
    Dry (emitIntegerArithmetic operator left) := by
  have hcode : ∀ number, Floatless (operator.integerCode number) := by
    cases operator <;> simp [Arithmetic.integerCode, Instruction.labels, Instruction.references]
  exact (emitFixed (by simp)).bind fun _ =>
    ite (nextLabel.bind fun number => emit (hcode number))
      ((pure 0).bind fun number => emit (hcode number))

theorem emitArithmetic (operator : Arithmetic) (left : Slot) (right : ValueType)
    (position : Position) : Dry (emitArithmetic operator left right position) :=
  ite ((emitJoin left right).bind fun _ => pure _) <|
    ite ((emitIntegerArithmetic operator left).bind fun _ => pure _) <|
    ite ((emitFixed (fixedCode_append.mpr ⟨fixedCode_floatOperands right,
      fixedCode_cons.mpr ⟨isFixed_floatCode operator, fixedCode_nil⟩⟩)).bind fun _ => pure _) <|
    (report _ position).bind fun _ => (emitFixed (by simp)).bind fun _ => pure _

theorem emitComparison (operator : Comparison) (left : Slot) (right : ValueType)
    (position : Position) : Dry (emitComparison operator left right position) := by
  have hend : Dry (do Gen.emit [.extendByte .rax .rax]; return ValueType.boolean) :=
    (emitFixed (by simp)).bind fun _ => pure _
  unfold Gen.emitComparison
  cases hcode : operator.code left right with
  | ok c => exact (emitFixed (fixedCode_comparison hcode)).bind fun _ => hend
  | error cause =>
    exact (report cause position).bind fun _ => (emitFixed (by simp)).bind fun _ => hend

theorem emitBinary (operator : BinaryOperator) (left : Slot) (right : ValueType)
    (position : Position) : Dry (emitBinary operator left right position) := by
  cases operator with
  | arithmetic operator => exact emitArithmetic operator left right position
  | comparison operator => exact emitComparison operator left right position
  | logical operator =>
    exact (emitFixed (fixedCode_connective operator right)).bind fun _ => pure _

theorem emitUnary (operator : UnaryOperator) (operand : ValueType) (position : Position) :
    Dry (emitUnary operator operand position) := by
  have hplain : Dry (do
      unless operand.isNumeric do reportInvalid operator.symbol operand operand position
      return operand) :=
    ite (pure _) ((report _ position).bind fun _ => pure _)
  cases operator with
  | not => exact (emitFixed (by simp)).bind fun _ => pure _
  | negate =>
    cases operand with
    | integer | float => exact (emitFixed (by simp)).bind fun _ => pure _
    | boolean | string | range => exact hplain
  | plus | step => exact hplain

/-! ## Statements -/

theorem jump {l : Label} (h : ∀ n, l ≠ .float n) : Dry (Gen.emit [.jump l]) :=
  emit (floatless_jump h)

theorem label {l : Label} (h : ∀ n, l ≠ .float n) : Dry (Gen.emit [.label l]) :=
  emit (floatless_label h)

theorem jumpIfFalse (type : ValueType) (mark : Mark) (number : Nat) :
    Dry (Gen.emit (type.jumpIfFalse (.numbered mark number))) :=
  emit (floatless_append.mpr ⟨(fixedCode_truthCode type).floatless,
    by simp [Instruction.labels, Instruction.references]⟩)

theorem storeDeclared (value : Option ValueType) (position : Position) (slot : Slot) : Dry (do
    match value with
    | some v => Gen.emitCoercion v slot.type position
    | none => Gen.emitZero slot.type
    Gen.emit slot.storeCode) := by
  cases value with
  | some v => exact (emitCoercion _ _ _).bind fun _ => emitFixed fixedCode_storeCode
  | none => exact (emitZero _).bind fun _ => emitFixed fixedCode_storeCode

theorem emitDeclaration (cell : Option Slot) (name : String) (constant : Bool)
    (type : Option DeclaredType) (value : Option ValueType) (position : Position) :
    Dry (emitDeclaration cell name constant type value position) := by
  cases cell with
  | some cell =>
    have hbind := modify (f := fun g => { g with globals := g.globals.insert name cell })
      fun _ => ⟨rfl, rfl, rfl, rfl⟩
    exact hbind.bind fun _ => (pure cell).bind (storeDeclared value position)
  | none => exact (declare _ _ _).bind (storeDeclared value position)

theorem emitPrint (type : ValueType) (newline : Bool) : Dry (emitPrint type newline) := by
  cases type with
  | integer | float | range =>
    exact (emitFixed (by simp)).bind fun _ => emitFixed (by simp)
  | boolean | string =>
    exact (emitText _).bind fun _ => (emitFixed (by simp)).bind fun _ => emitFixed (by simp)

theorem jumpEpilogue (g : Generator) : Dry (Gen.emit [.jump g.epilogue]) := jump fun _ => nofun

theorem emitReturn (value : Option (ValueType × Position)) : Dry (emitReturn value) := by
  refine fun pool g => .get_bind fun hg => ?_
  have hexit := hg.topLevelExit
  revert hexit
  cases g.topLevelExit with
  | some exit => exact fun hexit => jump (hexit exit rfl) pool g
  | none =>
    refine fun _ => (?_ : Dry _) pool g
    cases value with
    | none => exact (emitZero _).bind fun _ => jumpEpilogue g
    | some v =>
      dsimp only
      split
      · exact (emitZero _).bind fun _ => jumpEpilogue g
      · exact (emitCoercion _ _ _).bind fun _ => jumpEpilogue g

theorem emitLoopJump {target : LoopLabels → Label}
    (ht : ∀ l : LoopLabels, target l = l.onContinue ∨ target l = l.onBreak) :
    Dry (emitLoopJump target) := by
  refine fun pool g => .get_bind fun hg => ?_
  have hloops := hg.loops
  have hexit := hg.topLevelExit
  revert hloops hexit
  cases g.loops with
  | cons labels rest =>
    intro hloops _
    have hl := hloops labels List.mem_cons_self
    refine jump (fun n => ?_) pool g
    rcases ht labels with h | h
    · exact h ▸ (hl n).1
    · exact h ▸ (hl n).2
  | nil =>
    cases g.topLevelExit with
    | some exit => exact fun _ hexit => jump (hexit exit rfl) pool g
    | none => exact fun _ _ => ((emitZero _).bind fun _ => jumpEpilogue g : Dry _) pool g

theorem emitStepCheck : Dry emitStepCheck := (emitFixed (by simp)).bind fun _ => spill .integer

end Dry

/-! ## Steps -/

namespace Draws

/-- The 1 of the pool is named behind the copy of the value that is stepped. -/
theorem emitStep {slot : Slot} {increment : Bool} (hone : Float.toBits 1 ∈ pool) (name : String)
    (position : Position)
    (h : slot.type = .float → ∀ n, pool[n]? = some (Float.toBits 1) → P (g.code.size + 1)
      (.floatMemory (if increment then .add else .subtract) (.data (.float n) 0) .xmm2) n) :
    Draws pool P (emitStep name slot increment position) g := by
  have hfinish : ∀ i : Instruction, i.isFixed = true → Dry
      (if slot.mutable then Gen.emit [i] else Gen.report (.valReassignment name) position) :=
    fun i hi => .ite (.emitFixed (fixedCode_cons.mpr ⟨hi, fixedCode_nil⟩)) (.report _ _)
  unfold Gen.emitStep
  revert h
  cases slot.type with
  | integer =>
    exact fun _ => ((Dry.emitFixed (by simp)).bind fun _ => hfinish _ (by simp)).draws
  | float =>
    refine fun h => .internFloat_bind hone fun n hn =>
      .bind (.emit fun k i m hk hm => ?_) fun _ _ _ => (hfinish _ (by simp)).draws
    match k with
    | 0 =>
      cases hk
      cases hm
    | 1 =>
      cases hk
      cases List.mem_singleton.mp (show Label.float m ∈ [Label.float n] from hm)
      exact h rfl n hn
  | boolean | string | range => exact fun _ => .pure _

end Draws

/-- A name is resolved without code, or means an integer from here on. -/
theorem resolve_cases {name : String} {position : Position} {slot : Slot} {h : Generator}
    (hx : resolve name position g = .ok slot h) :
    g.find? name = some slot ∧ h = g ∨ slot.type = .integer := by
  rw [resolve, get_bind] at hx
  cases hf : g.find? name with
  | some found =>
    rw [hf] at hx
    cases hx
    exact .inl ⟨rfl, rfl⟩
  | none =>
    rw [hf] at hx
    cases hx
    exact .inr rfl

/-- The value of a float variable takes one instruction to load. -/
theorem size_loadCode {slot : Slot} (h : slot.type = .float) (code : Array Instruction) :
    (code ++ slot.loadCode).size = code.size + 1 := by
  rw [show slot.loadCode = [.loadFloat slot.low .xmm0] by rw [Slot.loadCode, h]]
  exact Array.size_push _

namespace Draws

/-- The 1 of the pool is named behind the value of the variable and a copy of it. -/
theorem emitStepValue {step : Step} {name : String} (hone : Float.toBits 1 ∈ pool)
    (position : Position)
    (h : ∀ slot, g.find? name = some slot → slot.type = .float → ∀ n,
      pool[n]? = some (Float.toBits 1) → P (g.code.size + 2) (.floatMemory
        (if step.isIncrement then .add else .subtract) (.data (.float n) 0) .xmm2) n) :
    Draws pool P (emitStepValue step name position) g := by
  refine .bind (Dry.resolve name position).draws fun slot k hk =>
    .bind (Dry.emitFixed fixedCode_loadCode).draws fun _ k' hk' =>
    .bind (.emitStep hone name position fun hfloat n hn => ?_) fun _ _ _ => Dry.draws ?_
  · rcases resolve_cases hk with ⟨hfind, rfl⟩ | hinteger
    · cases hk'
      rw [size_loadCode hfloat]
      exact h slot hfind hfloat n hn
    · rw [hinteger] at hfloat
      cases hfloat
  · refine .ite ?_ (.pure _)
    cases slot.type with
    | integer | float => exact (Dry.emitFixed (by simp)).bind fun _ => .pure _
    | boolean | string | range => exact .pure _

/-- So is it where the step is a statement. Other assignments name no float. -/
theorem emitAssignment {target : String} {operator : AssignOperator}
    (hone : Float.toBits 1 ∈ pool) (value : Option ValueType) (position : Position)
    (h : ∀ step slot, operator = .step step → g.find? target = some slot → slot.type = .float →
      ∀ n, pool[n]? = some (Float.toBits 1) → P (g.code.size + 2) (.floatMemory
        (if step.isIncrement then .add else .subtract) (.data (.float n) 0) .xmm2) n) :
    Draws pool P (emitAssignment target operator value position) g := by
  refine .get_bind fun _ => ?_
  revert h
  cases g.find? target with
  | none => exact fun _ => (Dry.report _ _).draws
  | some slot =>
    have hstore : ∀ type, Dry (do
        emitCoercion type slot.type position
        Gen.emit slot.storeCode) := fun type =>
      (Dry.emitCoercion _ _ _).bind fun _ => .emitFixed fixedCode_storeCode
    intro h
    cases operator with
    | step step =>
      refine .bind (Dry.emitFixed fixedCode_loadCode).draws fun _ k hk =>
        .emitStep hone target position fun hfloat n hn => ?_
      cases hk
      rw [size_loadCode hfloat]
      exact h step slot rfl rfl hfloat n hn
    | set => exact (Dry.ite (hstore _) (.report _ _)).draws
    | combine o =>
      exact (Dry.ite ((Dry.spill _).bind fun right => (Dry.emitFixed fixedCode_loadCode).bind
        fun _ => (Dry.spill _).bind fun left => (Dry.emitFixed fixedCode_loadCode).bind fun _ =>
        (Dry.emitBinary _ left _ _).bind hstore) (.report _ _)).draws

end Draws

end Gen

end ScriptLang
