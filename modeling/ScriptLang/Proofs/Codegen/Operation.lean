import ScriptLang.Proofs.Codegen.Yield
import ScriptLang.Proofs.Typing.Judgment

/-!
# Code for operators follows their types

The code emitted for a conversion, an operator or a step reports what the types of the
operands object to, and gives the type they tell.
-/

namespace ScriptLang.Gen

open Assembly

theorem quiet_emitZero (type : ValueType) : Quiet (emitZero type) := by
  cases type with
  | string => exact .bind (quiet_internString "") fun label => quiet_emit _
  | _ => exact quiet_emit _

theorem quiet_spill (type : ValueType) : Quiet (spill type) := fun g =>
  (yields_spill type g).weaken fun _ _ => trivial

theorem quiet_emitFormatted (format : Format) (type : ValueType)
    (arguments : Slot → List Instruction) : Quiet (emitFormatted format type arguments) :=
  .bind (quiet_spill type) fun value => .bind (quiet_temporary .string) fun _ =>
    .bind (quiet_emit _) fun _ => .bind (quiet_emit (arguments value)) fun _ => quiet_emit _

theorem quiet_emitText (type : ValueType) : Quiet (emitText type) := by
  cases type with
  | string => exact .pure ()
  | boolean => exact quiet_emit _
  | _ => exact quiet_emitFormatted _ _ _

theorem quiet_emitJoin (left : Slot) (right : ValueType) : Quiet (emitJoin left right) :=
  .bind (quiet_emitText right) fun _ => .bind (quiet_spill .string) fun _ =>
    .bind (quiet_emit left.loadCode) fun _ => .bind (quiet_emitText left.type) fun _ =>
    .bind (quiet_spill .string) fun _ => .bind (quiet_temporary .integer) fun _ =>
    .bind (quiet_temporary .string) fun _ => quiet_emit _

theorem quiet_emitIntegerArithmetic (operator : Arithmetic) (left : Slot) :
    Quiet (emitIntegerArithmetic operator left) := by
  refine .bind (quiet_emit _) fun _ => ?_
  dsimp only
  cases operator.divides with
  | false => exact .bind (.pure 0) fun number => quiet_emit (operator.integerCode number)
  | true => exact .bind quiet_nextLabel fun number => quiet_emit (operator.integerCode number)

variable {g : Generator} {slot : Slot} {right t : ValueType} {position : Position}

theorem yields_emitCoercion (source target : ValueType) (position : Position) (g : Generator) :
    Yields (fun _ => True) (faultsAt (source.conversionObjection target) position)
      (emitCoercion source target position) g := by
  unfold emitCoercion
  by_cases h : source = target
  · rw [if_pos h, ValueType.conversionObjection, if_pos (by simp [h])]
    exact .pure trivial
  · rw [if_neg h]
    cases source <;> cases target
    case integer.float => exact quiet_emit _ g
    case float.integer => exact quiet_emit _ g
    all_goals first
      | exact absurd rfl h
      | exact .finish (yields_report _ position g) fun _ g' _ _ => quiet_emitZero _ g'

theorem yields_emitArithmetic (operator : Arithmetic) (left : Slot) (right : ValueType)
    (position : Position) (g : Generator) :
    Yields (· = operator.staticType left.type right)
      (faultsAt (operator.objection left.type right) position)
      (emitArithmetic operator left right position) g := by
  unfold emitArithmetic Arithmetic.objection Arithmetic.staticType
  by_cases hs : (operator = .add && (left.type = .string || right = .string)) = true
  · rw [if_pos hs, if_pos hs, hs]
    exact (quiet_emitJoin left right).yields fun _ _ => .pure rfl
  rw [if_neg hs, if_neg hs, Bool.eq_false_iff.mpr hs, Bool.false_or]
  by_cases hi : (left.type = .integer && right = .integer) = true
  · have hl : left.type = .integer := by simp_all
    have hr : right = .integer := by simp_all
    rw [if_pos hi, if_pos hi, hl, hr]
    exact (quiet_emitIntegerArithmetic operator left).yields fun _ _ => .pure rfl
  rw [if_neg hi, if_neg hi]
  by_cases hn : (left.type.isNumeric && right.isNumeric) = true
  · rw [if_pos hn, if_pos hn, if_pos hn]
    exact (quiet_emit _).yields fun _ _ => .pure rfl
  · rw [if_neg hn, if_neg hn, if_neg hn]
    exact .finish (yields_report _ position g) fun _ g' _ _ =>
      (quiet_emit _).yields fun _ _ => .pure rfl

/-- Operands without code to compare them are the ones objected to. -/
theorem code_of_objection (operator : Comparison) (left : Slot) (right : ValueType) :
    (∃ code, operator.code left right = .ok code ∧ operator.objection left.type right = none) ∨
      ∃ cause, operator.code left right = .error cause ∧
        operator.objection left.type right = some cause := by
  obtain ⟨location, type, mutable⟩ := left
  cases type <;> cases right <;> first
    | exact .inl ⟨_, rfl, rfl⟩
    | exact .inr ⟨_, rfl, rfl⟩
    | cases operator <;> first
      | exact .inl ⟨_, rfl, rfl⟩
      | exact .inr ⟨_, rfl, rfl⟩

theorem yields_emitComparison (operator : Comparison) (left : Slot) (right : ValueType)
    (position : Position) (g : Generator) :
    Yields (· = .boolean) (faultsAt (operator.objection left.type right) position)
      (emitComparison operator left right position) g := by
  unfold emitComparison
  have hend : ∀ g, Yields (· = .boolean) [] (do
      emit [.extendByte .rax .rax]
      return ValueType.boolean) g := fun _ => (quiet_emit _).yields fun _ _ => .pure rfl
  rcases code_of_objection operator left right with ⟨code, hc, ho⟩ | ⟨cause, hc, ho⟩
  · rw [hc, ho]
    exact (quiet_emit code).yields fun _ g' => hend g'
  · rw [hc, ho]
    exact .finish (yields_report cause position g) fun _ _ _ _ =>
      (quiet_emit _).yields fun _ g' => hend g'

theorem yields_emitBinary (operator : BinaryOperator) (left : Slot) (right : ValueType)
    (position : Position) (g : Generator) :
    Yields (· = operator.resultType left.type right)
      (faultsAt (operator.objection left.type right) position)
      (emitBinary operator left right position) g := by
  cases operator with
  | arithmetic o => exact yields_emitArithmetic o left right position g
  | comparison o => exact yields_emitComparison o left right position g
  | logical o => exact (quiet_emit _).yields fun _ _ => .pure rfl

theorem yields_emitUnary (operator : UnaryOperator) (operand : ValueType) (position : Position)
    (g : Generator) :
    Yields (· = operator.resultType operand) (faultsAt (operator.objection operand) position)
      (emitUnary operator operand position) g := by
  cases operator <;> cases operand <;> first
    | exact (quiet_emit _).yields fun _ _ => .pure rfl
    | exact Yields.pure rfl
    | exact .finish (yields_report _ position g) fun _ _ _ _ => .pure rfl

/-- A stepped number is stored, or the `val` it is in objects. -/
theorem yields_storeUnlessVal {k : Typing} (hn : k.type.isNumeric = true) (name : String)
    (store : Instruction) (position : Position) (g : Generator) :
    Yields (fun _ => True) (faultsAt (k.stepObjection name) position)
      (if k.mutable then emit [store] else report (.valReassignment name) position) g := by
  rw [Typing.stepObjection, hn, Bool.true_and]
  cases k.mutable with
  | true => exact quiet_emit [store] g
  | false => exact yields_report (.valReassignment name) position g

theorem yields_emitStep (name : String) (slot : Slot) (increment : Bool) (position : Position)
    (g : Generator) :
    Yields (fun _ => True) (faultsAt (slot.typing.stepObjection name) position)
      (emitStep name slot increment position) g := by
  obtain ⟨location, type, mutable⟩ := slot
  cases type with
  | integer =>
    refine (quiet_emit _).yields fun _ g' => ?_
    exact yields_storeUnlessVal (k := ⟨.integer, mutable⟩) rfl name _ position g'
  | float =>
    refine (quiet_internFloat _).yields fun _ _ => (quiet_emit _).yields fun _ g' => ?_
    exact yields_storeUnlessVal (k := ⟨.float, mutable⟩) rfl name _ position g'
  | _ => exact .pure trivial

theorem yields_resolve {name : String} (h : g.find? name = some slot) (position : Position) :
    Yields (· = slot) [] (resolve name position) g := by
  refine ⟨slot, g, ?_, rfl, .refl g⟩
  have hg : (get : Gen Generator) g = .ok g g := rfl
  rw [resolve, bind_of_ok _ hg, h]
  rfl

theorem yields_emitStepValue (step : Step) {name : String} (h : g.find? name = some slot)
    (position : Position) :
    Yields (· = slot.type) (faultsAt (slot.typing.stepObjection name) position)
      (emitStepValue step name position) g := by
  refine Yields.bind (yields_resolve h position) fun found _ hs _ => ?_
  subst hs
  refine (quiet_emit _).yields fun _ g' => ?_
  refine .finish (yields_emitStep name _ _ position g') fun _ _ _ _ => ?_
  obtain ⟨location, type, mutable⟩ := found
  cases step.isBefore with
  | false => exact .pure rfl
  | true =>
    cases type with
    | integer => exact (quiet_emit _).yields fun _ _ => .pure rfl
    | float => exact (quiet_emit _).yields fun _ _ => .pure rfl
    | _ => exact .pure rfl

end ScriptLang.Gen
