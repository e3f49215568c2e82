import ScriptLang.Proofs.Codegen.Arrival
import ScriptLang.Proofs.Codegen.Parallel.Statement
import ScriptLang.Proofs.Codegen.Pool.Operation

/-!
# Trees and the pool

A literal names its own float and the step of a float the 1 of the pool, right where
generation comes to them. No other part of a tree names a float, so each one that is named in
the code of a tree is told by a spot in it.
-/

namespace ScriptLang

open Assembly Gen Generator

/-- Generated from a state, the part names the float at a place of the pool, with the
instruction at a position. -/
inductive FloatUse (pool : Array UInt64) :
    (j : Part) → j.Tree → Generator → Nat → Instruction → Nat → Prop
  | literal {x : Float} {span : Span} {h : Generator} {n : Nat} :
    pool[n]? = some x.toBits →
    FloatUse pool .expression (.float x span) h h.code.size
      (.loadFloat (.data (.float n) 0) .xmm0) n
  | step {step : Step} {operand : Expr} {span : Span} {name : String} {slot : Slot}
    {h : Generator} {n : Nat} :
    operand.ungroup.name? = some name → h.find? name = some slot → slot.type = .float →
    pool[n]? = some (Float.toBits 1) →
    FloatUse pool .expression (.unary (.step step) operand span) h (h.code.size + 2)
      (.floatMemory (if step.isIncrement then .add else .subtract) (.data (.float n) 0) .xmm2) n
  | stepStatement {step : Step} {target : String} {value : Option Expr} {span : Span}
    {type : Option ValueType} {slot : Slot} {h h' : Generator} {n : Nat} :
    option value h = .ok type h' → h'.find? target = some slot → slot.type = .float →
    pool[n]? = some (Float.toBits 1) →
    FloatUse pool .statement (.assign target (.step step) value span) h (h'.code.size + 2)
      (.floatMemory (if step.isIncrement then .add else .subtract) (.data (.float n) 0) .xmm2) n

/-- In the code of a tree, a part at a spot names the float, where generation comes to it. -/
def UsedIn (pool : Array UInt64) (o : Part) (x : o.Tree) (g : Generator) (k : Nat)
    (i : Instruction) (n : Nat) : Prop :=
  ∃ (j : Part) (spot : Spot j o) (y : j.Tree) (h : Generator), x = spot.fill y ∧
    spot.lead g = .ok () h ∧ FloatUse pool j y h k i n

section

variable {pool : Array UInt64} {m o : Part} {x : o.Tree} {y : m.Tree} {g h : Generator} {k : Nat}
  {i : Instruction} {n : Nat}

theorem FloatUse.usedIn (hu : FloatUse pool o x g k i n) : UsedIn pool o x g k i n :=
  ⟨o, .here, x, g, rfl, rfl, hu⟩

theorem UsedIn.within (l : Layer m o) (hl : l.lead g = .ok () h) (hu : UsedIn pool m y h k i n) :
    UsedIn pool o (l.fill y) g k i n := by
  obtain ⟨j, spot, z, h', rfl, hspot, hu⟩ := hu
  exact ⟨j, .within l spot, z, h', rfl, (bind_of_ok _ hl).trans hspot, hu⟩

/-- No slot is in the pool. -/
theorem Slot.label?_low_ne (s : Slot) (n : Nat) : s.low.label? ≠ some (.float n) := by
  unfold Slot.low Slot.part
  split <;> simp

/-- What code for a tree with these floats needs is in the pool. -/
def Pooled (pool : Array UInt64) (xs : List Float) : Prop := ∀ x ∈ 1 :: xs, x.toBits ∈ pool

theorem pooled_append {xs ys : List Float} :
    Pooled pool (xs ++ ys) ↔ Pooled pool xs ∧ Pooled pool ys := by
  simp only [Pooled, List.forall_mem_cons, List.forall_mem_append]
  exact ⟨fun ⟨h, hx, hy⟩ => ⟨⟨h, hx⟩, h, hy⟩, fun ⟨⟨h, hx⟩, _, hy⟩ => ⟨h, hx, hy⟩⟩

theorem Pooled.one {xs : List Float} (h : Pooled pool xs) : Float.toBits 1 ∈ pool :=
  h 1 List.mem_cons_self

end

namespace Gen

variable {α : Type} {pool : Array UInt64} {P : Nat → Instruction → Nat → Prop} {g h : Generator}

namespace Draws

/-- What a part draws, its tree draws. -/
theorem within {m o : Part} {y : m.Tree} {x : Gen α} {k : Generator} (l : Layer m o)
    (hl : l.lead g = .ok () h) (hx : Draws pool (UsedIn pool m y h) x k) :
    Draws pool (UsedIn pool o (l.fill y) g) x k :=
  hx.mono fun _ _ _ => .within l hl

theorem withCounter {counter : String} {body : Slot → Gen Unit}
    (hb : ∀ copy h, enterCounter counter g = .ok copy h → Draws pool P (body copy) h) :
    Draws pool P (withCounter counter body) g := by
  have hown : (∀ copy h, (do modifyFrame .push; declare counter .integer true) g = .ok copy h →
      Draws pool P (body copy) h) →
      Draws pool P (Gen.inScope do body (← declare counter .integer true)) g := fun hb =>
    .inScope <| .bind (Dry.declare _ _ _).draws fun copy h hcopy => hb copy h hcopy
  refine .get_bind fun _ => ?_
  rw [show enterCounter counter g = _ from ScriptLang.get_bind _ g] at hb
  revert hb
  cases g.find? counter with
  | none => exact hown
  | some slot =>
    dsimp only
    split
    · exact fun hb => hb slot g rfl
    · exact hown

theorem emitLaps {number : Nat} {slots : LoopSlots} {body : Gen Unit} {copy : Slot}
    (hb : Draws pool P body { g with
      code := g.code ++ lapHead number slots copy
      loops := ⟨.numbered .forNext number, .numbered .forEnd number⟩ :: g.loops }) :
    Draws pool P (emitLaps number slots body copy) g := by
  have hhead : Dry (Gen.emit (lapHead number slots copy)) := .emit (by
    simp [-Memory.label?, lapHead, Instruction.labels, Instruction.references, Slot.label?_low_ne])
  have htail : Dry (Gen.emit (lapTail number slots)) := .emit (by
    simp [-Memory.label?, lapTail, Instruction.labels, Instruction.references, Slot.label?_low_ne])
  refine .bind hhead.draws fun _ _ hemit => ?_
  cases hemit
  exact .bind (.inLoop (by simp) hb) fun _ _ _ => htail.draws

end Draws

/-! ## Trees

Every case follows generation and takes what it has run so far as what leads to the next part.
Lists and options do not know the layer they stand in, so the reason is a parameter for them.
-/

mutual

theorem draws_expression : ∀ (e : Expr) (g : Generator), Pooled pool e.floats →
    Draws pool (UsedIn pool .expression e g) (expression e) g
  | .integer n _, _, _ =>
    ((Dry.emitFixed (fixedCode_cons.mpr ⟨isFixed_constantCode n, fixedCode_nil⟩)).bind
      fun _ => .pure _).draws
  | .float x _, _, hx => .internFloat_bind (hx x (.tail _ (.head _))) fun n hn =>
    .bind (.emit fun k i m hk hm => by
      match k with
      | 0 =>
        cases hk
        cases List.mem_singleton.mp (show Label.float m ∈ [Label.float n] from hm)
        exact (FloatUse.literal hn).usedIn) fun _ _ _ => .pure _
  | .boolean .., _, _ => ((Dry.emitFixed (by simp)).bind fun _ => .pure _).draws
  | .string .., _, _ => (Dry.internString_bind fun _ =>
    (Dry.emit (by simp [Instruction.labels, Instruction.references])).bind fun _ =>
      .pure _).draws
  | .name .., _, _ => ((Dry.resolve _ _).bind fun _ =>
    (Dry.emitFixed fixedCode_loadCode).bind fun _ => .pure _).draws
  | .group inner span, g, hx => .within (.group span) rfl (draws_expression inner g hx)
  | .binary operator left right span, g, hx =>
    .bind (.within (.leftOperand operator right span) rfl
      (draws_expression left g (pooled_append.mp hx).1)) fun _ _ h₁ =>
    .bind (Dry.spill _).draws fun _ k h₂ =>
    .bind (.within (.rightOperand operator left span) ((bind_of_ok _ h₁).trans (bind_of_ok _ h₂))
      (draws_expression right k (pooled_append.mp hx).2)) fun _ _ _ =>
    (Dry.emitBinary _ _ _ _).draws
  | .unary operator operand span, g, hx => by
    have hplain : Draws pool (UsedIn pool .expression (.unary operator operand span) g)
        (do emitUnary operator (← expression operand) span.start) g :=
      .bind (.within (.operand operator span) rfl (draws_expression operand g hx)) fun _ _ _ =>
        (Dry.emitUnary _ _ _).draws
    cases operator with
    | not | negate | plus => exact hplain
    | step step =>
      rw [expression]
      cases hn : operand.ungroup.name? with
      | some name =>
        exact .emitStepValue hx.one _ fun slot hfind hfloat n hplace =>
          (FloatUse.step hn hfind hfloat hplace).usedIn
      | none => exact .within (.operand (.step step) span) rfl (draws_expression operand g hx)
  | .call callee arguments span, g, hx => by
    have hcount : ∀ {before after : List Expr} {e : Expr},
        (before ++ e :: after).length = before.length + 1 + after.length := by
      intro before after e
      rw [List.length_append, List.length_cons]
      omega
    refine .get_bind fun _ => ?_
    -- What leads to an argument hangs on the signature, as the call itself does.
    cases hf : g.signatures.find? callee with
    | none =>
      refine .bind (draws_discarded arguments g hx fun before e after h hsplit hbefore => ?_)
        fun _ _ _ => (Dry.emitFailedCall _ _ _).draws
      subst hsplit
      refine fun k i n => .within (.argument callee before after span) ?_
      rw [Layer.lead, get_bind, hf]
      exact hbefore
    | some signature =>
      dsimp only
      split
      · next harity =>
        refine .bind (draws_stored arguments signature.function.parameters g hx
          fun before e after h slots hsplit hbefore => ?_) fun slots _ _ => Dry.draws ?_
        · subst hsplit
          refine fun k i n => .within (.argument callee before after span) ?_
          rw [Layer.lead, get_bind, hf]
          dsimp only
          rw [if_pos (harity.trans hcount)]
          exact bind_of_ok _ hbefore
        · exact (Dry.emitFixed (fixedCode_callCode _ slots)).bind fun _ =>
            .ite ((Dry.emitFixed (by simp)).bind fun _ => .pure _) (.pure _)
      · next harity =>
        refine .bind (draws_discarded arguments g hx fun before e after h hsplit hbefore => ?_)
          fun _ _ _ => (Dry.emitFailedCall _ _ _).draws
        subst hsplit
        refine fun k i n => .within (.argument callee before after span) ?_
        rw [Layer.lead, get_bind, hf]
        dsimp only
        rw [if_neg (hcount ▸ harity)]
        exact hbefore
  | .range start stop excludesStop descending step span, g, hx => by
    obtain ⟨hx, -⟩ := pooled_append.mp hx
    obtain ⟨hstart, hstop⟩ := pooled_append.mp hx
    refine .bind (.within (.lowerBound stop excludesStop descending step span) rfl
      (draws_expression start g hstart)) fun _ _ h₁ =>
      .bind (Dry.emitCoercion _ _ _).draws fun _ _ h₂ => .bind (Dry.spill _).draws fun _ k h₃ =>
      .bind (.within (.upperBound start excludesStop descending step span)
        ((bind_of_ok _ h₁).trans ((bind_of_ok _ h₂).trans (bind_of_ok _ h₃)))
        (draws_expression stop k hstop)) fun _ _ _ => Dry.draws ?_
    exact (Dry.emitCoercion _ _ _).bind fun _ => (Dry.emitFixed (by simp)).bind fun _ => .pure _
  | .run ⟨body, inner⟩ outer, g, hx => by
    refine .bind (.inScope (.within (.run inner outer) rfl (draws_lastValue body _ hx)))
      fun type _ _ => ?_
    cases type with
    | some type => exact .pure type
    | none => exact ((Dry.emitFixed (by simp)).bind fun _ => .pure _).draws

theorem draws_discarded : ∀ {Q : Nat → Instruction → Nat → Prop} (es : List Expr)
    (g : Generator), Pooled pool (argumentFloats es) →
    (∀ before e after h, es = before ++ e :: after → discarded before g = .ok () h →
      ∀ k i n, UsedIn pool .expression e h k i n → Q k i n) → Draws pool Q (discarded es) g
  | _, [], _, _, _ => .pure _
  | _, e :: es, g, hx, hP =>
    .bind ((draws_expression e g (pooled_append.mp hx).1).mono (hP [] e es g rfl rfl))
      fun _ h ht => draws_discarded es h (pooled_append.mp hx).2
        fun before e' after k hsplit hbefore =>
          hP (e :: before) e' after k (congrArg (e :: ·) hsplit) ((bind_of_ok _ ht).trans hbefore)

theorem draws_stored : ∀ {Q : Nat → Instruction → Nat → Prop} (es : List Expr)
    (ps : List Parameter) (g : Generator), Pooled pool (argumentFloats es) →
    (∀ before e after h slots, es = before ++ e :: after → stored before ps g = .ok slots h →
      ∀ k i n, UsedIn pool .expression e h k i n → Q k i n) → Draws pool Q (stored es ps) g
  | _, [], _, _, _, _ | _, _ :: _, [], _, _, _ => .pure _
  | _, e :: es, _ :: ps, g, hx, hP =>
    .bind ((draws_expression e g (pooled_append.mp hx).1).mono (hP [] e es g [] rfl rfl))
      fun _ _ h₁ => .bind (Dry.emitCoercion _ _ _).draws fun _ _ h₂ =>
      .bind (Dry.spill _).draws fun slot h h₃ =>
      .bind (draws_stored es ps h (pooled_append.mp hx).2
        fun before e' after k slots hsplit hbefore =>
          hP (e :: before) e' after k (slot :: slots) (congrArg (e :: ·) hsplit)
            ((bind_of_ok _ h₁).trans ((bind_of_ok _ h₂).trans ((bind_of_ok _ h₃).trans
              (bind_of_ok _ hbefore))))) fun _ _ _ => .pure _

theorem draws_lastValue : ∀ (body : List Stmt) (g : Generator), Pooled pool (bodyFloats body) →
    Draws pool (UsedIn pool (.body true) body g) (lastValue body) g
  | [], _, _ => .pure _
  | [s], g, hx => by
    have hx := (pooled_append.mp hx).1
    have hs := (draws_statement s g hx).within (.head true []) rfl
    cases s with
    | expression e =>
      exact .map (.within (.head true []) rfl (.within .asStatement rfl (draws_expression e g hx)))
    | _ => exact .bind hs fun _ _ _ => .pure _
  | s :: t :: rest, g, hx => by
    have hs := (draws_statement s g (pooled_append.mp hx).1).within (.head true (t :: rest)) rfl
    have hrest := fun h hh => (draws_lastValue (t :: rest) h (pooled_append.mp hx).2).within
      (g := g) (.tail true s) hh
    cases s <;> exact .bind hs fun _ h hh => hrest h hh

theorem draws_option : ∀ {Q : Nat → Instruction → Nat → Prop} (value : Option Expr)
    (g : Generator), Pooled pool (optionFloats value) →
    (∀ e, value = some e → ∀ k i n, UsedIn pool .expression e g k i n → Q k i n) →
    Draws pool Q (option value) g
  | _, none, _, _, _ => .pure _
  | _, some e, g, hx, hQ => .map ((draws_expression e g hx).mono (hQ e rfl))

theorem draws_loopSlots (position : Position) : ∀ (e : Expr) (g : Generator),
    Pooled pool e.floats → Draws pool (UsedIn pool .range e g) (loopSlots position e) g
  | .group inner span, g, hx =>
    .within (.rangeGroup span) rfl (draws_loopSlots position inner g hx)
  | .range start stop excludesStop descending step span, g, hx => by
    obtain ⟨hx, hstep⟩ := pooled_append.mp hx
    obtain ⟨hstart, hstop⟩ := pooled_append.mp hx
    refine .bind (.within (.rangeLower stop excludesStop descending step span) rfl
      (draws_expression start g hstart)) fun _ _ h₁ =>
      .bind (Dry.emitCoercion _ _ _).draws fun _ _ h₂ => .bind (Dry.spill _).draws fun _ k h₃ =>
      .bind (.within (.rangeUpper start excludesStop descending step span)
        ((bind_of_ok _ h₁).trans ((bind_of_ok _ h₂).trans (bind_of_ok _ h₃)))
        (draws_expression stop k hstop)) fun _ _ h₄ =>
      .bind (Dry.emitCoercion _ _ _).draws fun _ _ h₅ => .bind (Dry.spill _).draws fun _ u h₆ =>
      .bind (draws_loopStep step u hstep ?_) fun _ _ _ => .pure _
    rintro e rfl k i n
    exact .within (.rangeStep start stop excludesStop descending span)
      ((bind_of_ok _ h₁).trans ((bind_of_ok _ h₂).trans ((bind_of_ok _ h₃).trans
        ((bind_of_ok _ h₄).trans ((bind_of_ok _ h₅).trans (bind_of_ok _ h₆))))))
  | .integer .., _, _ | .float .., _, _ | .boolean .., _, _ | .string .., _, _ | .name .., _, _
  | .binary .., _, _ | .unary .., _, _ | .call .., _, _ | .run ⟨_, _⟩ _, _, _ =>
    (Dry.throw _).draws

theorem draws_loopStep : ∀ {Q : Nat → Instruction → Nat → Prop} (step : Option Expr)
    (g : Generator), Pooled pool (optionFloats step) →
    (∀ e, step = some e → ∀ k i n, UsedIn pool .expression e g k i n → Q k i n) →
    Draws pool Q (loopStep step) g
  | _, none, _, _, _ => ((Dry.temporary _).bind fun slot =>
    (Dry.emitFixed (by simp)).bind fun _ => .pure slot).draws
  | _, some e, g, hx, hQ => .bind ((draws_expression e g hx).mono (hQ e rfl)) fun _ _ _ =>
    ((Dry.emitCoercion _ _ _).bind fun _ => .emitStepCheck).draws

theorem draws_statement : ∀ (s : Stmt) (g : Generator), Pooled pool s.floats →
    Draws pool (UsedIn pool .statement s g) (statement s) g
  | .expression e, g, hx =>
    .bind (.within .asStatement rfl (draws_expression e g hx)) fun _ _ _ => .pure _
  | .declare name constant type value span, g, hx =>
    .bind (draws_option value g hx fun e he k i n => by
      subst he
      exact .within (.initial name constant type span) rfl) fun _ _ _ =>
      (Dry.emitDeclaration _ _ _ _ _ _).draws
  | .assign target operator value span, g, hx =>
    .bind (draws_option value g hx fun e he k i n => by
      subst he
      exact .within (.assigned target operator span) rfl) fun type h hvalue =>
      .emitAssignment hx.one _ _ fun step slot ho hfind hfloat n hn => by
        subst ho
        exact (FloatUse.stepStatement hvalue hfind hfloat hn).usedIn
  | .print none newline _, _, _ =>
    (Dry.ite (.emitFixed (by simp [printNewline])) (.pure _)).draws
  | .print (some e) newline span, g, hx =>
    .bind (.within (.printed newline span) rfl (draws_expression e g hx)) fun _ _ _ =>
      (Dry.emitPrint _ _).draws
  | .block ⟨body, span⟩, g, hx => .inScope (.within (.block span) rfl (draws_statements body _ hx))
  | .branch condition thenBody elseBody span, g, hx => by
    obtain ⟨hx, helse⟩ := pooled_append.mp hx
    obtain ⟨hcondition, hthen⟩ := pooled_append.mp hx
    refine .bind Dry.nextLabel.draws fun number g₁ h₁ =>
      .bind (.within (.branchCondition thenBody elseBody span) (bind_of_ok _ h₁)
        (draws_expression condition g₁ hcondition)) fun _ _ h₂ =>
      .bind (Dry.jumpIfFalse _ _ _).draws fun _ g₃ h₃ =>
      .bind (.within (.branchThen condition elseBody span)
        ((bind_of_ok _ h₁).trans ((bind_of_ok _ h₂).trans h₃))
        (draws_statement thenBody g₃ hthen)) fun _ _ h₄ =>
      .bind (Dry.emit (by simp [Instruction.labels, Instruction.references])).draws
        fun _ g₅ h₅ =>
      .bind (draws_statementOption elseBody g₅ helse ?_) fun _ _ _ =>
        (Dry.label (by simp)).draws
    rintro s rfl k i n
    exact .within (.branchElse condition thenBody span)
      ((bind_of_ok _ h₁).trans ((bind_of_ok _ h₂).trans ((bind_of_ok _ h₃).trans
        ((bind_of_ok _ h₄).trans h₅))))
  | .whileLoop condition body span, g, hx => by
    obtain ⟨hcondition, hbody⟩ := pooled_append.mp hx
    refine .bind Dry.nextLabel.draws fun number g₁ h₁ =>
      .bind (Dry.label (by simp)).draws fun _ g₂ h₂ =>
      .bind (.within (.whileCondition body span) ((bind_of_ok _ h₁).trans h₂)
        (draws_expression condition g₂ hcondition)) fun _ _ h₃ =>
      .bind (Dry.jumpIfFalse _ _ _).draws fun _ g₄ h₄ =>
      .bind (.inLoop (fun _ => ⟨nofun, nofun⟩)
        (.within (.loopBody (.whileLoop condition span)) ?_ (draws_statement body _ hbody)))
        fun _ _ _ => Dry.draws (.emit (by simp [Instruction.labels, Instruction.references]))
    have hhead : (Loop.whileLoop condition span).head number g₁ = .ok () g₄ :=
      (bind_of_ok _ h₂).trans ((bind_of_ok _ h₃).trans h₄)
    exact (bind_of_ok _ h₁).trans (bind_of_ok _ hhead)
  | .doWhile body condition span, g, hx => by
    obtain ⟨hbody, hcondition⟩ := pooled_append.mp hx
    refine .bind Dry.nextLabel.draws fun number g₁ h₁ =>
      .bind (Dry.label (by simp)).draws fun _ g₂ h₂ =>
      .bind (.inLoop (fun _ => ⟨nofun, nofun⟩)
        (.within (.loopBody (.doWhile condition span)) ?_ (draws_statement body _ hbody)))
        fun _ _ h₃ =>
      .bind (Dry.label (by simp)).draws fun _ g₄ h₄ =>
      .bind (.within (.doCondition body span)
        ((bind_of_ok _ h₁).trans ((bind_of_ok _ h₂).trans ((bind_of_ok _ h₃).trans h₄)))
        (draws_expression condition g₄ hcondition)) fun type _ _ => Dry.draws (.emit ?_)
    · exact (bind_of_ok _ h₁).trans (bind_of_ok _ h₂)
    · exact floatless_append.mpr ⟨(fixedCode_truthCode type).floatless,
        by simp [Instruction.labels, Instruction.references]⟩
  | .forLoop counter range body span, g, hx => by
    obtain ⟨hrange, hbody⟩ := pooled_append.mp hx
    refine .bind Dry.nextLabel.draws fun number g₁ h₁ =>
      .bind (.within (.forRange counter body span) (bind_of_ok _ h₁)
        (draws_loopSlots range.span.start range g₁ hrange)) fun slots g₂ h₂ =>
      .withCounter fun copy g₃ h₃ => .emitLaps <|
        .within (.loopBody (.forLoop counter range span)) ?_ (draws_statement body _ hbody)
    have hhead : (Loop.forLoop counter range span).head number g₁ =
        .ok () { g₃ with code := g₃.code ++ lapHead number slots copy } :=
      (bind_of_ok _ h₂).trans (bind_of_ok _ h₃)
    exact (bind_of_ok _ h₁).trans (bind_of_ok _ hhead)
  | .function _, _, _ => .pure _
  | .return none _, _, _ => (Dry.emitReturn _).draws
  | .return (some e) span, g, hx =>
    .bind (.within (.returned span) rfl (draws_expression e g hx)) fun _ _ _ =>
      (Dry.emitReturn _).draws
  | .break _, _, _ => (Dry.emitLoopJump fun _ => .inr rfl).draws
  | .continue _, _, _ => (Dry.emitLoopJump fun _ => .inl rfl).draws

theorem draws_statementOption : ∀ {Q : Nat → Instruction → Nat → Prop} (s : Option Stmt)
    (g : Generator), Pooled pool (optionBodyFloats s) →
    (∀ b, s = some b → ∀ k i n, UsedIn pool .statement b g k i n → Q k i n) →
    Draws pool Q (statementOption s) g
  | _, none, _, _, _ => .pure _
  | _, some s, g, hx, hQ => (draws_statement s g hx).mono (hQ s rfl)

theorem draws_statements : ∀ (body : List Stmt) (g : Generator), Pooled pool (bodyFloats body) →
    Draws pool (UsedIn pool (.body false) body g) (statements body) g
  | [], _, _ => .pure _
  | s :: rest, g, hx =>
    .bind (.within (.head false rest) rfl (draws_statement s g (pooled_append.mp hx).1))
      fun _ h hh => .within (.tail false s) hh (draws_statements rest h (pooled_append.mp hx).2)

end

end Gen

end ScriptLang
