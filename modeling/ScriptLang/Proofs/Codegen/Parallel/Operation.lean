import ScriptLang.Codegen.Generator
import ScriptLang.Proofs.Codegen.Parallel

/-!
# Operators side by side

Code for conversions, operators and calls names slots, symbols and library functions, which
are the same on both sides. Where it takes numbers or constants, both sides take theirs.
-/

namespace ScriptLang

open Assembly

/-! ## Fixed code -/

section

variable {c : List Instruction} {s : Slot}

@[simp] theorem isFixed_frame (offset : Int) : (Memory.frame offset).isFixed = true := rfl

@[simp] theorem isFixed_pointedBy (base : Register) : (Memory.pointedBy base).isFixed = true := rfl

@[simp] theorem isFixed_low : s.low.isFixed = true := by
  unfold Slot.low Slot.part
  split <;> rfl

@[simp] theorem isFixed_high : s.high.isFixed = true := by
  unfold Slot.high Slot.part
  split <;> rfl

@[simp] theorem fixedCode_storeCode : FixedCode s.storeCode := by
  unfold Slot.storeCode
  split <;> simp

@[simp] theorem fixedCode_loadCode : FixedCode s.loadCode := by
  unfold Slot.loadCode
  split <;> simp

@[simp] theorem fixedCode_truthCode (t : ValueType) : FixedCode t.truthCode := by
  cases t <;> simp [ValueType.truthCode]

@[simp] theorem fixedCode_floatOperands (t : ValueType) : FixedCode (floatOperands s t) := by
  unfold floatOperands
  simp only [fixedCode_append, fixedCode_loadCode, and_true]
  exact ⟨⟨.ite (by simp) (by simp), by simp⟩, .ite (by simp) (by simp)⟩

theorem isFixed_floatCode (operator : Arithmetic) : operator.floatCode.isFixed = true := by
  cases operator <;> rfl

/-- A comparison that there is has fixed code. -/
theorem fixedCode_comparison {operator : Comparison} {right : ValueType}
    (h : operator.code s right = .ok c) : FixedCode c := by
  unfold Comparison.code at h
  split at h
  · cases h
    simp [Comparison.stringCode]
  · cases h
    simp [Comparison.wordCode]
  · cases h
    simp [Comparison.wordCode]
  · split at h
    · cases h
      simp [Comparison.rangeCode]
    · cases h
      simp [Comparison.rangeCode]
    · cases h
  · split at h
    · cases h
      have hcode : FixedCode operator.floatCode := by
        cases operator <;> simp [Comparison.floatCode]
      simpa using hcode
    · cases h

theorem fixedCode_connective (operator : Connective) (right : ValueType) :
    FixedCode (operator.code s right) := by
  simp [Connective.code]

@[simp] theorem fixedCode_receive (p : Passage) : FixedCode (p.receive s) := by
  cases p <;> simp [Passage.receive]

theorem fixedCode_callCode (symbol : String) (slots : List Slot) :
    FixedCode (callCode symbol slots) := by
  have hzip : ∀ {f : Passage → Slot → List Instruction}, (∀ p s, FixedCode (f p s)) →
      ∀ (ps : List Passage), ∀ c ∈ List.zipWith f ps slots, FixedCode c := by
    intro f hf ps c hc
    obtain ⟨i, hi, rfl⟩ := List.mem_iff_getElem.mp hc
    rw [List.getElem_zipWith]
    exact hf _ _
  have hflatten : ∀ {cs : List (List Instruction)}, (∀ c ∈ cs, FixedCode c) →
      FixedCode cs.flatten := fun hcs i hi => by
    obtain ⟨c, hc, hi⟩ := List.mem_flatten.mp hi
    exact hcs c hc i hi
  have hpushed : ∀ p s, FixedCode (Passage.pushed p s) := fun p s => by
    cases p <;> simp [Passage.pushed]
  have hsend : ∀ p s, FixedCode (Passage.send p s) := fun p s => by
    cases p <;> simp [Passage.send]
  unfold callCode
  simp only [fixedCode_append]
  refine ⟨⟨⟨⟨.ite (by simp) (by simp), ?_⟩, ?_⟩, by simp⟩, .ite (by simp) (by simp)⟩
  · exact hflatten fun c hc => hzip hpushed _ c (List.mem_reverse.mp hc)
  · exact hflatten (hzip hsend _)

end

namespace Gen

open Generator (Outset Alike SameConstant)

namespace Matches

variable {α β : Type} {o : Outset} {G : String → Option Slot} {x y : Gen α}

theorem modifyFrame (f : Frame → Frame) : Matches o G (modifyFrame f) (modifyFrame f) :=
  modify fun _ _ h => h.withFrame (congrArg f h.frame)

theorem temporary (type : ValueType) : Matches o G (temporary type) (temporary type) :=
  get_bind fun g h hgh => by
    rw [hgh.frame]
    exact (modifyFrame _).bind fun _ => pure _

theorem declare (name : String) (type : ValueType) (mutable : Bool) :
    Matches o G (declare name type mutable) (declare name type mutable) :=
  get_bind fun g h hgh => by
    rw [hgh.frame]
    exact (modifyFrame _).bind fun _ => pure _

theorem inScope (h : Matches o G x y) : Matches o G (inScope x) (inScope y) :=
  (modifyFrame _).bind fun _ => h.bind fun _ => (modifyFrame _).bind fun _ => pure _

/-! ## Results -/

theorem emitZero (type : ValueType) : Matches o G (emitZero type) (emitZero type) := by
  cases type with
  | float | range | integer | boolean => exact emitFixed (by simp)
  | string => exact (interns_string "").emit fun hl => .cons (.address _ hl) .nil

theorem spill (type : ValueType) : Matches o G (spill type) (spill type) :=
  (temporary type).bind fun slot => (emitFixed fixedCode_storeCode).bind fun _ => pure slot

theorem emitCoercion (source target : ValueType) (p p' : Position) :
    Matches o G (emitCoercion source target p) (emitCoercion source target p') := by
  refine branch _ (pure _) ?_
  have hreported := (report (o := o) (G := G)
    (.typeMatch target.declaredType.name source.name) p p').bind fun _ => emitZero target
  cases source <;> cases target <;> first | exact hreported | exact emitFixed (by simp)

theorem emitFormatted (format : Format) (type : ValueType) {arguments : Slot → List Instruction}
    (h : ∀ slot, FixedCode (arguments slot)) :
    Matches o G (emitFormatted format type arguments) (emitFormatted format type arguments) :=
  (spill type).bind fun value => (temporary .string).bind fun buffer =>
    (emitFixed (by simp)).bind fun _ => (emitFixed (h value)).bind fun _ => emitFixed (by simp)

theorem emitText (type : ValueType) : Matches o G (emitText type) (emitText type) := by
  cases type with
  | string => exact pure _
  | boolean => exact emitFixed (by simp)
  | integer | float | range => exact emitFormatted _ _ fun _ => by simp

theorem resolve (name : String) (p p' : Position) :
    Matches o G (resolve name p) (resolve name p') := by
  refine get_bind fun g h hgh => ?_
  rw [hgh.find?]
  cases h.find? name with
  | some slot => exact pure slot
  | none =>
    exact (report _ p p').bind fun _ => (declare name .integer true).bind fun slot =>
      (emitFixed (by simp)).bind fun _ => pure slot

/-! ## Operators -/

theorem emitJoin (left : Slot) (right : ValueType) :
    Matches o G (emitJoin left right) (emitJoin left right) :=
  (emitText right).bind fun _ => (spill .string).bind fun _ =>
    (emitFixed fixedCode_loadCode).bind fun _ => (emitText left.type).bind fun _ =>
      (spill .string).bind fun _ => (temporary .integer).bind fun _ =>
        (temporary .string).bind fun _ => emitFixed (by simp)

/-- A division has labels of its own. -/
theorem codeAgrees_integerCode {operator : Arithmetic} {m d : Label → Label → Prop} {a b : Nat}
    (h : operator.divides = true → ∀ mark, m (.numbered mark a) (.numbered mark b)) :
    CodeAgrees m d (operator.integerCode a) (operator.integerCode b) := by
  cases operator with
  | add | subtract | multiply => exact .fixed (by simp [Arithmetic.integerCode])
  | divide =>
    exact .cons (.fixed rfl) <| .cons (.fixed rfl) <| .cons (.fixed rfl) <|
      .cons (.jumpIf _ (h rfl _)) <| .cons (.fixed rfl) <| .cons (.jump (h rfl _)) <|
      .cons (.label (h rfl _)) <| .cons (.fixed rfl) <| .cons (.fixed rfl) <|
      .cons (.label (h rfl _)) .nil
  | modulo =>
    exact .cons (.fixed rfl) <| .cons (.fixed rfl) <| .cons (.fixed rfl) <|
      .cons (.jumpIf _ (h rfl _)) <| .cons (.fixed rfl) <| .cons (.jump (h rfl _)) <|
      .cons (.label (h rfl _)) <| .cons (.fixed rfl) <| .cons (.fixed rfl) <|
      .cons (.fixed rfl) <| .cons (.label (h rfl _)) .nil

theorem emitIntegerArithmetic (operator : Arithmetic) (left : Slot) :
    Matches o G (emitIntegerArithmetic operator left) (emitIntegerArithmetic operator left) := by
  refine (emitFixed (by simp)).bind fun _ => ?_
  cases hd : operator.divides with
  | true =>
    exact nextLabel_bind fun a b hab => emit fun _ _ _ =>
      codeAgrees_integerCode fun _ mark => .intro mark hab
  | false =>
    exact (pure 0).bind fun _ => emit fun _ _ _ => codeAgrees_integerCode fun h => by
      rw [hd] at h
      cases h

theorem emitArithmetic (operator : Arithmetic) (left : Slot) (right : ValueType)
    (p p' : Position) :
    Matches o G (emitArithmetic operator left right p) (emitArithmetic operator left right p') :=
  branch _ ((emitJoin left right).bind fun _ => pure _) <|
    branch _ ((emitIntegerArithmetic operator left).bind fun _ => pure _) <|
    branch _ ((emitFixed (fixedCode_append.mpr ⟨fixedCode_floatOperands right,
      fixedCode_cons.mpr ⟨isFixed_floatCode operator, fixedCode_nil⟩⟩)).bind fun _ => pure _) <|
    (report _ p p').bind fun _ => (emitFixed (by simp)).bind fun _ => pure _

theorem emitComparison (operator : Comparison) (left : Slot) (right : ValueType)
    (p p' : Position) :
    Matches o G (emitComparison operator left right p) (emitComparison operator left right p') := by
  have hend : Matches o G (do Gen.emit [.extendByte .rax .rax]; return ValueType.boolean)
      (do Gen.emit [.extendByte .rax .rax]; return ValueType.boolean) :=
    (emitFixed (by simp)).bind fun _ => pure _
  unfold Gen.emitComparison
  cases hcode : operator.code left right with
  | ok c => exact (emitFixed (fixedCode_comparison hcode)).bind fun _ => hend
  | error cause =>
    exact (report cause p p').bind fun _ => (emitFixed (by simp)).bind fun _ => hend

theorem emitBinary (operator : BinaryOperator) (left : Slot) (right : ValueType)
    (p p' : Position) :
    Matches o G (emitBinary operator left right p) (emitBinary operator left right p') := by
  cases operator with
  | arithmetic operator => exact emitArithmetic operator left right p p'
  | comparison operator => exact emitComparison operator left right p p'
  | logical operator =>
    exact (emitFixed (fixedCode_connective operator right)).bind fun _ => pure _

theorem emitUnary (operator : UnaryOperator) (operand : ValueType) (p p' : Position) :
    Matches o G (emitUnary operator operand p) (emitUnary operator operand p') := by
  have hplain : Matches o G
      (do
        unless operand.isNumeric do reportInvalid operator.symbol operand operand p
        return operand)
      (do
        unless operand.isNumeric do reportInvalid operator.symbol operand operand p'
        return operand) :=
    branch _ (pure _) ((report _ p p').bind fun _ => pure _)
  cases operator with
  | not => exact (emitFixed (by simp)).bind fun _ => pure _
  | negate =>
    cases operand with
    | integer | float => exact (emitFixed (by simp)).bind fun _ => pure _
    | boolean | string | range => exact hplain
  | plus | step => exact hplain

/-! ## Steps -/

theorem emitStep (name : String) (slot : Slot) (increment : Bool) (p p' : Position) :
    Matches o G (emitStep name slot increment p) (emitStep name slot increment p') := by
  have hfinish : ∀ i : Instruction, i.isFixed = true → Matches o G
      (if slot.mutable then Gen.emit [i] else Gen.report (.valReassignment name) p)
      (if slot.mutable then Gen.emit [i] else Gen.report (.valReassignment name) p') :=
    fun i hi => branch _ (emitFixed (fixedCode_cons.mpr ⟨hi, fixedCode_nil⟩)) (report _ p p')
  unfold Gen.emitStep
  cases slot.type with
  | integer => exact (emitFixed (by simp)).bind fun _ => hfinish _ (by simp)
  | float =>
    exact (interns_float _).emit_bind
      (fun hl => .cons (.fixed rfl) (.cons (.floatMemory _ _ hl) .nil)) (hfinish _ (by simp))
  | boolean | string | range => exact pure _

theorem emitStepValue (step : Step) (name : String) (p p' : Position) :
    Matches o G (emitStepValue step name p) (emitStepValue step name p') := by
  refine (resolve name p p').bind fun slot => (emitFixed fixedCode_loadCode).bind fun _ =>
    (emitStep name slot step.isIncrement p p').bind fun _ => branch _ ?_ (pure _)
  cases slot.type with
  | integer | float => exact (emitFixed (by simp)).bind fun _ => pure _
  | boolean | string | range => exact pure _

end Matches

end Gen

end ScriptLang
