import ScriptLang.Proofs.Codegen.Parallel.Operation
import ScriptLang.Proofs.Tree.Core

/-!
# Trees and their cores side by side

Generation does not see spans and parentheses: what is generated for a tree and what is
generated for its core agree, from any two states that are alike.
-/

namespace ScriptLang

open Assembly

namespace Gen

open Generator (Outset Alike SameConstant)

namespace Matches

variable {α : Type} {o : Outset} {G : String → Option Slot} {x y : Gen α}

theorem emitFailedCall (cause : Cause) (type : ValueType) (p p' : Position) :
    Matches o G (emitFailedCall cause type p) (emitFailedCall cause type p') :=
  (report cause p p').bind fun _ => (emitZero type).bind fun _ => pure type

/-! ## Statements on variables -/

/-- Converts and stores what is declared. -/
theorem storeDeclared (value : Option ValueType) (p p' : Position) (slot : Slot) : Matches o G
    (do
      match value with
      | some v => Gen.emitCoercion v slot.type p
      | none => Gen.emitZero slot.type
      Gen.emit slot.storeCode)
    (do
      match value with
      | some v => Gen.emitCoercion v slot.type p'
      | none => Gen.emitZero slot.type
      Gen.emit slot.storeCode) := by
  cases value with
  | none => exact (emitZero _).bind fun _ => emitFixed fixedCode_storeCode
  | some v => exact (emitCoercion v _ p p').bind fun _ => emitFixed fixedCode_storeCode

theorem emitDeclaration (name : String) (constant : Bool) (type : Option DeclaredType)
    (value : Option ValueType) (p p' : Position) :
    Matches o G (emitDeclaration none name constant type value p)
      (emitDeclaration none name constant type value p') :=
  (declare name _ _).bind (storeDeclared value p p')

theorem emitAssignment (target : String) (operator : AssignOperator) (value : Option ValueType)
    (p p' : Position) :
    Matches o G (emitAssignment target operator value p)
      (emitAssignment target operator value p') := by
  refine get_bind fun g h hgh => ?_
  rw [hgh.find?]
  cases h.find? target with
  | none => exact report _ p p'
  | some slot =>
    cases operator with
    | step step =>
      exact (emitFixed fixedCode_loadCode).bind fun _ => emitStep target slot _ p p'
    | set =>
      exact branch _ ((emitCoercion _ _ p p').bind fun _ => emitFixed fixedCode_storeCode)
        (report _ p p')
    | combine operator =>
      refine branch _ ?_ (report _ p p')
      exact (spill _).bind fun _ => (emitFixed fixedCode_loadCode).bind fun _ =>
        (spill _).bind fun left => (emitFixed fixedCode_loadCode).bind fun _ =>
        (emitBinary (.arithmetic operator) left _ p p').bind fun type =>
        (emitCoercion type _ p p').bind fun _ => emitFixed fixedCode_storeCode

theorem emitPrint (type : ValueType) (newline : Bool) :
    Matches o G (emitPrint type newline) (emitPrint type newline) := by
  have hend : Matches o G (Gen.emit [.callLibrary .printf]) (Gen.emit [.callLibrary .printf]) :=
    emitFixed (by simp)
  cases type with
  | integer | float | range => exact (emitFixed (by simp)).bind fun _ => hend
  | boolean | string =>
    exact (emitText _).bind fun _ => (emitFixed (by simp)).bind fun _ => hend

/-! ## Jumps -/

theorem jump {l l' : Label} (h : o.Marks l l') :
    Matches o G (Gen.emit [.jump l]) (Gen.emit [.jump l']) :=
  emit fun _ _ _ => .cons (.jump h) .nil

theorem emitReturn (value : Option ValueType) (p p' : Position) :
    Matches o G (emitReturn (value.map (·, p))) (emitReturn (value.map (·, p'))) := by
  refine get_bind fun g h hgh => ?_
  rw [hgh.returns, hgh.epilogue]
  have hexit := hgh.topLevelExit
  revert hexit
  generalize g.topLevelExit = exit
  generalize h.topLevelExit = exit'
  rintro (hexit | _)
  · exact jump hexit
  · have hjump : Matches o G (Gen.emit [.jump h.epilogue]) (Gen.emit [.jump h.epilogue]) :=
      emitFixed (by simp [Generator.epilogue])
    cases value with
    | none => exact (emitZero _).bind fun _ => hjump
    | some type =>
      exact branch _ ((emitZero _).bind fun _ => hjump)
        ((emitCoercion type _ p p').bind fun _ => hjump)

theorem emitLoopJump {target : LoopLabels → Label}
    (ht : ∀ l l' : LoopLabels, o.Marks l.onContinue l'.onContinue → o.Marks l.onBreak l'.onBreak →
      o.Marks (target l) (target l')) :
    Matches o G (emitLoopJump target) (emitLoopJump target) := by
  refine get_bind fun g h hgh => ?_
  rw [hgh.returns, hgh.epilogue]
  have hexit := hgh.topLevelExit
  have hloops := hgh.loops
  revert hexit hloops
  generalize g.loops = loops
  generalize h.loops = loops'
  generalize g.topLevelExit = exit
  generalize h.topLevelExit = exit'
  rintro hexit (_ | ⟨hl, _⟩)
  · rcases hexit with hexit | _
    · exact jump hexit
    · exact (emitZero _).bind fun _ => emitFixed (by simp [Generator.epilogue])
  · exact jump (ht _ _ hl.1 hl.2)

theorem inLoop {l l' : LoopLabels} (hc : o.Marks l.onContinue l'.onContinue)
    (hb : o.Marks l.onBreak l'.onBreak) {x y : Gen Unit} (h : Matches o G x y) :
    Matches o G (inLoop l x) (inLoop l' y) :=
  bind (modify fun _ _ hgh => { hgh with loops := .cons ⟨hc, hb⟩ hgh.loops }) fun _ =>
    h.bind fun _ => modify fun g h hgh => by
      refine { hgh with loops := ?_ }
      have hloops := hgh.loops
      revert hloops
      generalize g.loops = loops
      generalize h.loops = loops'
      rintro (_ | ⟨_, hrest⟩)
      · exact .nil
      · exact hrest

theorem withCounter (counter : String) {body body' : Slot → Gen Unit}
    (h : ∀ slot, Matches o G (body slot) (body' slot)) :
    Matches o G (withCounter counter body) (withCounter counter body') := by
  have hown : Matches o G (Gen.inScope do body (← Gen.declare counter .integer true))
      (Gen.inScope do body' (← Gen.declare counter .integer true)) :=
    inScope ((declare counter _ _).bind h)
  refine get_bind fun s t hst => ?_
  rw [hst.find?]
  cases t.find? counter with
  | none => exact hown
  | some slot => exact branch _ (h slot) hown

theorem emitLaps {a b : Nat} (hab : o.Numbers a b) (slots : LoopSlots) {body body' : Gen Unit}
    (h : Matches o G body body') (copy : Slot) :
    Matches o G (emitLaps a slots body copy) (emitLaps b slots body' copy) := by
  have hm : ∀ mark, o.Marks (.numbered mark a) (.numbered mark b) := fun mark => .intro mark hab
  refine bind (emit fun _ _ _ => ?_) fun _ => bind (inLoop (hm _) (hm _) h) fun _ =>
    emit fun _ _ _ => ?_
  · exact .cons (.label (hm _)) <| .cons (.fixed (by simp)) <| .cons (.fixed (by simp)) <|
      .cons (.jumpIf _ (hm _)) <| .cons (.fixed (by simp)) .nil
  · exact .cons (.label (hm _)) <| .cons (.fixed (by simp)) <| .cons (.fixed (by simp)) <|
      .cons (.jumpIf _ (hm _)) <| .cons (.fixed (by simp)) <|
      .cons (.jump (hm _)) <| .cons (.label (hm _)) .nil

theorem emitStepCheck : Matches o G emitStepCheck emitStepCheck :=
  (emitFixed (by simp)).bind fun _ => spill .integer

/-- Jumps over what runs on true. -/
theorem emitJumpIfFalse (type : ValueType) {l l' : Label} (h : o.Marks l l') :
    Matches o G (Gen.emit (type.jumpIfFalse l)) (Gen.emit (type.jumpIfFalse l')) :=
  emit fun _ _ _ => (CodeAgrees.fixed (fixedCode_truthCode type)).append <|
    .cons (.fixed rfl) (.cons (.jumpIf _ h) .nil)

end Matches

/-! ## Trees -/

theorem isFixed_constantCode (n : Int64) : (constantCode n).isFixed = true := by
  unfold constantCode
  split <;> rfl

variable {o : Outset} {G : String → Option Slot}

mutual

theorem expression_core : ∀ e : Expr, Matches o G (expression e) (expression e.core)
  | .integer n _ =>
    (Matches.emitFixed (fixedCode_cons.mpr ⟨isFixed_constantCode n, fixedCode_nil⟩)).bind
      fun _ => .pure _
  | .float x _ =>
    (interns_float x.toBits).emit_bind (fun hl => .cons (.loadFloat _ hl) .nil) (.pure _)
  | .boolean .. => (Matches.emitFixed (by simp)).bind fun _ => .pure _
  | .string s _ => (interns_string s).emit_bind (fun hl => .cons (.address _ hl) .nil) (.pure _)
  | .name name _ => (Matches.resolve name _ _).bind fun slot =>
    (Matches.emitFixed fixedCode_loadCode).bind fun _ => .pure slot.type
  | .group inner _ => expression_core inner
  | .binary operator left right _ =>
    (expression_core left).bind fun _ => (Matches.spill _).bind fun slot =>
      (expression_core right).bind fun type => .emitBinary operator slot type _ _
  | .unary (.step step) operand _ => by
    rw [Expr.core, expression, expression, Expr.ungroup_core, Expr.name?_core]
    cases operand.ungroup.name? with
    | some name => exact .emitStepValue step name _ _
    | none => exact expression_core operand
  | .unary .not operand _ | .unary .negate operand _ | .unary .plus operand _ =>
    (expression_core operand).bind fun type => .emitUnary _ type _ _
  | .call callee arguments _ => by
    refine .get_bind fun g h hgh => ?_
    have hknown := hgh.signatures callee
    cases hg : g.signatures.find? callee with
    | none =>
      rw [hg] at hknown
      rw [Option.map_eq_none_iff.mp hknown.symm]
      exact (discarded_core arguments).bind fun _ => .emitFailedCall _ _ _ _
    | some s =>
      rw [hg] at hknown
      obtain ⟨s', hh, hs⟩ := Option.map_eq_some_iff.mp hknown.symm
      obtain ⟨symbol, f⟩ := s
      obtain ⟨symbol', f'⟩ := s'
      obtain ⟨rfl, hs⟩ := Prod.mk.inj hs
      obtain ⟨hparameters, hreturns⟩ := Prod.mk.inj hs
      dsimp only at hparameters hreturns
      have hlength : (Expr.coreList arguments).length = arguments.length := by
        rw [Expr.coreList_eq, List.length_map]
      rw [hh]
      dsimp only
      rw [hparameters, hreturns, hlength]
      refine .branch _ ?_ ((discarded_core arguments).bind fun _ => .emitFailedCall _ _ _ _)
      refine (stored_core arguments f.parameters).bind fun slots =>
        (Matches.emitFixed (fixedCode_callCode _ slots)).bind fun _ => ?_
      exact .branch _ ((Matches.emitFixed (by simp)).bind fun _ => .pure _) (.pure _)
  | .range start stop _ _ _ _ =>
    (expression_core start).bind fun type => (Matches.emitCoercion type _ _ _).bind fun _ =>
      (Matches.spill _).bind fun _ => (expression_core stop).bind fun type =>
      (Matches.emitCoercion type _ _ _).bind fun _ =>
      (Matches.emitFixed (by simp)).bind fun _ => .pure _
  | .run ⟨body, _⟩ _ => (lastValue_core body).inScope.bind fun
    | some type => .pure type
    | none => (Matches.emitFixed (by simp)).bind fun _ => .pure _

theorem discarded_core : ∀ es : List Expr, Matches o G (discarded es) (discarded (Expr.coreList es))
  | [] => .pure _
  | e :: es => (expression_core e).bind fun _ => discarded_core es

theorem stored_core : ∀ (es : List Expr) (ps : List Parameter),
    Matches o G (stored es ps) (stored (Expr.coreList es) ps)
  | [], _ | _ :: _, [] => .pure _
  | e :: es, _ :: ps => (expression_core e).bind fun type =>
    (Matches.emitCoercion type _ _ _).bind fun _ => (Matches.spill _).bind fun _ =>
      (stored_core es ps).bind fun _ => .pure _

theorem lastValue_core : ∀ body : List Stmt,
    Matches o G (lastValue body) (lastValue (Stmt.coreList body))
  | [] => .pure _
  | [s] => by
    have hs := statement_core s
    cases s with
    | expression e => exact (expression_core e).map
    | block b => cases b; exact hs.bind fun _ => .pure _
    | function f => obtain ⟨_, _, _, ⟨_, _⟩, _⟩ := f; exact hs.bind fun _ => .pure _
    | _ => exact hs.bind fun _ => .pure _
  | s :: t :: rest => by
    have hs := statement_core s
    have hrest := lastValue_core (t :: rest)
    cases s with
    | block b => cases b; exact hs.bind fun _ => hrest
    | function f => obtain ⟨_, _, _, ⟨_, _⟩, _⟩ := f; exact hs.bind fun _ => hrest
    | _ => exact hs.bind fun _ => hrest

theorem option_core : ∀ e : Option Expr, Matches o G (option e) (option (Expr.coreOption e))
  | none => .pure _
  | some e => (expression_core e).map

theorem loopSlots_core (p p' : Position) : ∀ e : Expr,
    Matches o G (loopSlots p e) (loopSlots p' e.core)
  | .group inner _ => loopSlots_core p p' inner
  | .range start stop _ _ step _ =>
    (expression_core start).bind fun type => (Matches.emitCoercion type _ _ _).bind fun _ =>
      (Matches.spill _).bind fun _ => (expression_core stop).bind fun type =>
      (Matches.emitCoercion type _ _ _).bind fun _ => (Matches.spill _).bind fun _ =>
      (loopStep_core step).bind fun _ => .pure _
  | .integer .. | .float .. | .boolean .. | .string .. | .name .. | .binary .. | .unary ..
  | .call .. | .run ⟨_, _⟩ _ => Corresponds.throw fun _ _ _ => ⟨rfl, rfl⟩

theorem loopStep_core : ∀ e : Option Expr, Matches o G (loopStep e) (loopStep (Expr.coreOption e))
  | none => (Matches.temporary _).bind fun slot =>
    (Matches.emitFixed (by simp)).bind fun _ => .pure slot
  | some e => (expression_core e).bind fun type =>
    (Matches.emitCoercion type _ _ _).bind fun _ => .emitStepCheck

theorem statement_core : ∀ s : Stmt, Matches o G (statement s) (statement s.core)
  | .expression e => (expression_core e).bind fun _ => .pure _
  | .declare name constant type value _ =>
    (option_core value).bind fun v => .emitDeclaration name constant type v _ _
  | .assign target operator value _ =>
    (option_core value).bind fun v => .emitAssignment target operator v _ _
  | .print none _ _ => .branch _ (.emitFixed (by simp [printNewline])) (.pure _)
  | .print (some e) newline _ => (expression_core e).bind fun type => .emitPrint type newline
  | .block ⟨body, _⟩ => (statements_core body).inScope
  | .branch condition thenBody elseBody _ => .nextLabel_bind fun a b hab => by
    have hm : ∀ mark, o.Marks (.numbered mark a) (.numbered mark b) := fun mark => .intro mark hab
    refine (expression_core condition).bind fun type =>
      (Matches.emitJumpIfFalse type (hm _)).bind fun _ => (statement_core thenBody).bind fun _ =>
      (Matches.emit fun _ _ _ => ?_).bind fun _ => (statementOption_core elseBody).bind fun _ =>
      .emit fun _ _ _ => ?_
    · exact .cons (.jump (hm _)) (.cons (.label (hm _)) .nil)
    · exact .cons (.label (hm _)) .nil
  | .whileLoop condition body _ => .nextLabel_bind fun a b hab => by
    have hm : ∀ mark, o.Marks (.numbered mark a) (.numbered mark b) := fun mark => .intro mark hab
    refine (Matches.emit fun _ _ _ => ?_).bind fun _ => (expression_core condition).bind fun type =>
      (Matches.emitJumpIfFalse type (hm _)).bind fun _ =>
      (Matches.inLoop (hm _) (hm _) (statement_core body)).bind fun _ => .emit fun _ _ _ => ?_
    · exact .cons (.label (hm _)) .nil
    · exact .cons (.jump (hm _)) (.cons (.label (hm _)) .nil)
  | .doWhile body condition _ => .nextLabel_bind fun a b hab => by
    have hm : ∀ mark, o.Marks (.numbered mark a) (.numbered mark b) := fun mark => .intro mark hab
    refine (Matches.emit fun _ _ _ => ?_).bind fun _ =>
      (Matches.inLoop (hm _) (hm _) (statement_core body)).bind fun _ =>
      (Matches.emit fun _ _ _ => ?_).bind fun _ => (expression_core condition).bind fun type =>
      .emit fun _ _ _ => ?_
    · exact .cons (.label (hm _)) .nil
    · exact .cons (.label (hm _)) .nil
    · exact (CodeAgrees.fixed (fixedCode_truthCode type)).append <| .cons (.fixed rfl) <|
        .cons (.jumpIf _ (hm _)) (.cons (.label (hm _)) .nil)
  | .forLoop counter range body _ => .nextLabel_bind fun _ _ hab =>
    (loopSlots_core _ _ range).bind fun slots =>
      .withCounter counter (.emitLaps hab slots (statement_core body))
  | .function ⟨_, _, _, ⟨_, _⟩, _⟩ => .pure _
  | .return none _ => .emitReturn none default default
  | .return (some e) _ => (expression_core e).bind fun type => .emitReturn (some type) _ _
  | .break _ => .emitLoopJump fun _ _ _ h => h
  | .continue _ => .emitLoopJump fun _ _ h _ => h

theorem statementOption_core : ∀ s : Option Stmt,
    Matches o G (statementOption s) (statementOption (Stmt.coreOption s))
  | none => .pure _
  | some s => statement_core s

theorem statements_core : ∀ body : List Stmt,
    Matches o G (statements body) (statements (Stmt.coreList body))
  | [] => .pure _
  | s :: rest => (statement_core s).bind fun _ => statements_core rest

end

end Gen

end ScriptLang
