import ScriptLang.Proofs.Codegen.Making

/-!
# Spots in trees

A spot is a position in a tree that code is generated for, given by the layers around it.
Functions in functions are no such position, nor is the step of a range that no loop counts
over: no code is generated for them.
-/

namespace ScriptLang

open Assembly Gen

/-- The parts of a tree that code is generated for. -/
inductive Part where
  | expression
  /-- What a `for` counts over. -/
  | range
  | statement
  /-- Statements in sequence; those of a `run` are valued by the last one. -/
  | body (valued : Bool)

abbrev Part.Tree : Part → Type
  | expression | range => Expr
  | statement => Stmt
  | body _ => List Stmt

/-- A loop but for its body. -/
inductive Loop where
  | whileLoop (condition : Expr) (span : Span)
  | doWhile (condition : Expr) (span : Span)
  | forLoop (counter : String) (range : Expr) (span : Span)

def Loop.around : Loop → Stmt → Stmt
  | whileLoop condition span, body => .whileLoop condition body span
  | doWhile condition span, body => .doWhile body condition span
  | forLoop counter range span, body => .forLoop counter range body span

/-- A tree but for one of the parts right below it. -/
inductive Layer : Part → Part → Type where
  | group (span : Span) : Layer .expression .expression
  | leftOperand (operator : BinaryOperator) (right : Expr) (span : Span) :
    Layer .expression .expression
  | rightOperand (operator : BinaryOperator) (left : Expr) (span : Span) :
    Layer .expression .expression
  | operand (operator : UnaryOperator) (span : Span) : Layer .expression .expression
  | argument (callee : String) (before after : List Expr) (span : Span) :
    Layer .expression .expression
  | lowerBound (stop : Expr) (excludesStop descending : Bool) (step : Option Expr) (span : Span) :
    Layer .expression .expression
  | upperBound (start : Expr) (excludesStop descending : Bool) (step : Option Expr) (span : Span) :
    Layer .expression .expression
  | run (inner outer : Span) : Layer (.body true) .expression
  | head (valued : Bool) (rest : List Stmt) : Layer .statement (.body valued)
  | tail (valued : Bool) (first : Stmt) : Layer (.body valued) (.body valued)
  | asStatement : Layer .expression .statement
  | initial (name : String) (constant : Bool) (type : Option DeclaredType) (span : Span) :
    Layer .expression .statement
  | assigned (target : String) (operator : AssignOperator) (span : Span) :
    Layer .expression .statement
  | printed (newline : Bool) (span : Span) : Layer .expression .statement
  | block (span : Span) : Layer (.body false) .statement
  | branchCondition (thenBody : Stmt) (elseBody : Option Stmt) (span : Span) :
    Layer .expression .statement
  | branchThen (condition : Expr) (elseBody : Option Stmt) (span : Span) :
    Layer .statement .statement
  | branchElse (condition : Expr) (thenBody : Stmt) (span : Span) : Layer .statement .statement
  | whileCondition (body : Stmt) (span : Span) : Layer .expression .statement
  | doCondition (body : Stmt) (span : Span) : Layer .expression .statement
  | forRange (counter : String) (body : Stmt) (span : Span) : Layer .range .statement
  | loopBody (loop : Loop) : Layer .statement .statement
  | returned (span : Span) : Layer .expression .statement
  | rangeGroup (span : Span) : Layer .range .range
  | rangeLower (stop : Expr) (excludesStop descending : Bool) (step : Option Expr)
    (span : Span) : Layer .expression .range
  | rangeUpper (start : Expr) (excludesStop descending : Bool) (step : Option Expr)
    (span : Span) : Layer .expression .range
  | rangeStep (start stop : Expr) (excludesStop descending : Bool) (span : Span) :
    Layer .expression .range

namespace Layer

variable {i o : Part}

/-- The tree with a part put in. -/
def fill : Layer i o → i.Tree → o.Tree
  | group span, e => .group e span
  | leftOperand operator right span, e => .binary operator e right span
  | rightOperand operator left span, e => .binary operator left e span
  | operand operator span, e => .unary operator e span
  | argument callee before after span, e => .call callee (before ++ e :: after) span
  | lowerBound stop excludesStop descending step span, e
  | rangeLower stop excludesStop descending step span, e =>
    .range e stop excludesStop descending step span
  | upperBound start excludesStop descending step span, e
  | rangeUpper start excludesStop descending step span, e =>
    .range start e excludesStop descending step span
  | rangeStep start stop excludesStop descending span, e =>
    .range start stop excludesStop descending (some e) span
  | run inner outer, b => .run ⟨b, inner⟩ outer
  | head _ rest, s => s :: rest
  | tail _ first, b => first :: b
  | asStatement, e => .expression e
  | initial name constant type span, e => .declare name constant type (some e) span
  | assigned target operator span, e => .assign target operator (some e) span
  | printed newline span, e => .print (some e) newline span
  | block span, b => .block ⟨b, span⟩
  | branchCondition thenBody elseBody span, e => .branch e thenBody elseBody span
  | branchThen condition elseBody span, s => .branch condition s elseBody span
  | branchElse condition thenBody span, s => .branch condition thenBody (some s) span
  | whileCondition body span, e => .whileLoop e body span
  | doCondition body span, e => .doWhile body e span
  | forRange counter body span, e => .forLoop counter e body span
  | loopBody loop, s => loop.around s
  | returned span, e => .return (some e) span
  | rangeGroup span, e => .group e span

/-- No loop has the part in its body. A part of the condition or the range of a loop is not in
its body. -/
def Open : Layer i o → Prop
  | loopBody _ => False
  | _ => True

end Layer

/-! ## What is generated in front -/

namespace Gen

/-- Makes a variable for what a `for` counts: the one of that name if it can hold the counter,
else one in a scope of its own. -/
def enterCounter (counter : String) : Gen Slot := do
  let own : Gen Slot := do
    modifyFrame .push
    declare counter .integer true
  match (← get).find? counter with
  | some slot => if slot.mutable && slot.type = .integer then return slot else own
  | none => own

end Gen

namespace Loop

/-- Where `continue` and `break` lead in the body of a loop with a number. -/
def labels (number : Nat) : Loop → LoopLabels
  | whileLoop _ _ => ⟨.numbered .whileStart number, .numbered .whileEnd number⟩
  | doWhile _ _ => ⟨.numbered .doCondition number, .numbered .doEnd number⟩
  | forLoop _ _ _ => ⟨.numbered .forNext number, .numbered .forEnd number⟩

/-- Generates what stands in front of the body of a loop with a number. -/
def head (number : Nat) : Loop → Gen Unit
  | whileLoop condition _ => do
    emit [.label (.numbered .whileStart number)]
    let type ← expression condition
    emit (type.jumpIfFalse (.numbered .whileEnd number))
  | doWhile _ _ => emit [.label (.numbered .doStart number)]
  | forLoop counter range _ => do
    let slots ← loopSlots range.span.start range
    let copy ← enterCounter counter
    emit (lapHead number slots copy)

/-- Generates what stands in front of the body, and goes into the loop. -/
def lead (loop : Loop) : Gen Unit := do
  let number ← nextLabel
  loop.head number
  modify fun g => { g with loops := loop.labels number :: g.loops }

end Loop

namespace Layer

variable {i o : Part}

/-- Generates what stands in front of the part that is put in. -/
def lead : Layer i o → Gen Unit
  | rightOperand _ left _ => do
    let _ ← spill (← expression left)
  | argument callee before after _ => do
    let count := before.length + 1 + after.length
    match (← get).signatures.find? callee with
    | some ⟨_, f⟩ =>
      if f.parameters.length = count then
        let _ ← stored before f.parameters
      else discarded before
    | none => discarded before
  | upperBound start _ _ _ _ | rangeUpper start _ _ _ _ => do
    emitCoercion (← expression start) .integer start.span.start
    let _ ← spill .integer
  | rangeStep start stop _ _ _ => do
    emitCoercion (← expression start) .integer start.span.start
    let _ ← spill .integer
    emitCoercion (← expression stop) .integer stop.span.start
    let _ ← spill .integer
  | run _ _ | block _ => modifyFrame .push
  | tail _ first => statement first
  | branchThen condition _ _ => do
    let number ← nextLabel
    let type ← expression condition
    emit (type.jumpIfFalse (.numbered .otherwise number))
  | branchElse condition thenBody _ => do
    let number ← nextLabel
    let type ← expression condition
    emit (type.jumpIfFalse (.numbered .otherwise number))
    statement thenBody
    emit [.jump (.numbered .endIf number), .label (.numbered .otherwise number)]
  | branchCondition _ _ _ | forRange _ _ _ => do
    let _ ← nextLabel
  | whileCondition _ _ => do
    let number ← nextLabel
    emit [.label (.numbered .whileStart number)]
  | doCondition body _ => do
    let number ← nextLabel
    emit [.label (.numbered .doStart number)]
    inLoop ⟨.numbered .doCondition number, .numbered .doEnd number⟩ (statement body)
    emit [.label (.numbered .doCondition number)]
  | loopBody loop => loop.lead
  | _ => return

end Layer

/-- A position in a tree, by the layers around it, outermost first. -/
inductive Spot (i : Part) : Part → Type where
  | here : Spot i i
  | within {m o : Part} (layer : Layer m o) (spot : Spot i m) : Spot i o

namespace Spot

variable {i m : Part}

/-- The tree with a part at the spot. -/
def fill : {o : Part} → Spot i o → i.Tree → o.Tree
  | _, here, x => x
  | _, within layer spot, x => layer.fill (spot.fill x)

/-- No loop of the tree has the spot in its body. -/
def Open : {o : Part} → Spot i o → Prop
  | _, here => True
  | _, within layer spot => layer.Open ∧ spot.Open

/-- Generates what stands in front of the spot. -/
def lead : {o : Part} → Spot i o → Gen Unit
  | _, here => return
  | _, within layer spot => do
    layer.lead
    spot.lead

/-- A spot in the tree at another spot. -/
def append : {o : Part} → Spot m o → Spot i m → Spot i o
  | _, here, inner => inner
  | _, within layer spot, inner => within layer (spot.append inner)

theorem fill_append (x : i.Tree) (inner : Spot i m) :
    ∀ {o : Part} (outer : Spot m o), (outer.append inner).fill x = outer.fill (inner.fill x)
  | _, here => rfl
  | _, within layer outer => congrArg layer.fill (fill_append x inner outer)

theorem lead_append (inner : Spot i m) :
    ∀ {o : Part} (outer : Spot m o), (outer.append inner).lead = do outer.lead; inner.lead
  | _, here => (pure_bind _ _).symm
  | _, within layer outer => by
    show (do layer.lead; (outer.append inner).lead) = _
    rw [lead_append inner outer]
    exact (bind_assoc _ _ _).symm

/-- The innermost of the loops whose bodies hold the spot, if there is one. -/
theorem innermost : ∀ {o : Part} (spot : Spot i o), spot.Open ∨
    ∃ (outer : Spot .statement o) (loop : Loop) (inner : Spot i .statement),
      spot = outer.append (.within (.loopBody loop) inner) ∧ inner.Open
  | _, here => .inl trivial
  | _, within layer spot => by
    rcases spot.innermost with h | ⟨outer, loop, inner, rfl, h⟩
    · cases layer with
      | loopBody loop => exact .inr ⟨here, loop, spot, rfl, h⟩
      | _ => exact .inl ⟨trivial, h⟩
    · exact .inr ⟨within layer outer, loop, inner, rfl, h⟩

end Spot

end ScriptLang
