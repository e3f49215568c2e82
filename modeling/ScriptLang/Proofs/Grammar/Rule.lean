import Mathlib.Logic.Basic
import ScriptLang.Grammar.Parser
import ScriptLang.Proofs.Computation
import ScriptLang.Proofs.Tree.Terminal

/-!
# What rules do when they succeed

Each rule is inverted once: from its success follow the successes of its parts,
the tokens it asked for, and the tree it made of them; and from these follows its
success. Nothing else opens a rule.
-/

namespace ScriptLang

/-- The literal or name that a terminal is as an expression. -/
def Terminal.primary? (span : Span) : Terminal → Option Expr
  | .integer n => some (.integer n span)
  | .float x => some (.float x span)
  | .string s => some (.string s span)
  | .name n => some (.name n span)
  | .symbol .trueWord => some (.boolean true span)
  | .symbol .falseWord => some (.boolean false span)
  | .symbol _ => none

namespace Parser

variable {α β : Type} {c c' : Cursor}

theorem fail_ok {cause : Cause} {p : Position} {a : α} : ¬ fail cause p c = .ok a c' := by
  intro h
  cases h

theorem unexpected_ok {a : α} : ¬ unexpected c = .ok a c' := by
  intro h
  cases h

theorem outOfFuel_ok {a : α} : ¬ outOfFuel c = .ok a c' := by
  intro h
  cases h

theorem ite_run {p : Prop} [Decidable p] {x y : Parser α} :
    (if p then x else y) c = if p then x c else y c := by
  split <;> rfl

/-- A rule goes on behind a check only if there is nothing to report. -/
theorem check_ok {p : Prop} [Decidable p] {cause : Cause} {position : Position}
    {f : Unit → Parser α} {x : Parser α} {a : α} :
    (if p then fail cause position >>= f else x) c = .ok a c' ↔ ¬ p ∧ x c = .ok a c' := by
  split <;> simp [bind_ok, fail_ok, *]

theorem checkNot_ok {p : Prop} [Decidable p] {cause : Cause} {position : Position}
    {f : Unit → Parser α} {x : Parser α} {a : α} :
    (if p then x else fail cause position >>= f) c = .ok a c' ↔ p ∧ x c = .ok a c' := by
  split <;> simp [bind_ok, fail_ok, *]

section

variable (f : Cursor → Parser β) (g : Token → Parser β) (h : Bool → Parser β)
  (i : Span → Parser β) (j : Position → Parser β)

theorem get_bind : (get >>= f) c = f c c := rfl

theorem current_bind : (current >>= g) c = g c.current c := rfl

theorem advance_bind : (advance >>= g) c = g c.current c.next := rfl

theorem position_bind : (position >>= j) c = j c.position c := rfl

theorem spanFrom_bind (start : Position) : (spanFrom start >>= i) c = i (c.spanFrom start) c := rfl

theorem eat_bind (kind : TokenKind) :
    (eat kind >>= h) c = if c.current.kind = kind then h true c.next else h false c := by
  unfold eat
  by_cases hk : c.current.kind = kind
  · rw [if_pos hk]
    exact bind_of_ok h (by rw [current_bind, if_pos hk]; rfl)
  · rw [if_neg hk]
    exact bind_of_ok h (by rw [current_bind, if_neg hk]; rfl)

end

theorem expectNamed_ok {kind : TokenKind} {e : String} {t : Token} :
    expectNamed kind e c = .ok t c' ↔
      c.current.kind = kind ∧ t = c.current ∧ c' = c.next := by
  unfold expectNamed
  by_cases hk : c.current.kind = kind
  · rw [current_bind, if_pos hk]
    change EStateM.Result.ok c.current c.next = _ ↔ _
    simp [hk, eq_comm]
  · rw [current_bind, if_neg hk]
    exact ⟨fun h => absurd h fail_ok, fun h => absurd h.1 hk⟩

theorem expect_ok {kind : TokenKind} {t : Token} :
    expect kind c = .ok t c' ↔ c.current.kind = kind ∧ t = c.current ∧ c' = c.next :=
  expectNamed_ok

/-- What a part that may be missing gives: it is read from `d` if `p` holds, and else
nothing is read. -/
def Optional (p : Prop) (x : Parser α) (d c : Cursor) (a : Option α) (c' : Cursor) : Prop :=
  (p ∧ ∃ b, x d = .ok b c' ∧ a = some b) ∨ (¬ p ∧ a = none ∧ c' = c)

theorem optional_ok {p : Prop} [Decidable p] {x : Parser α} {d : Cursor} {a : Option α} :
    (if p then (some <$> x) d else (pure none : Parser (Option α)) c) = .ok a c' ↔
      Optional p x d c a c' := by
  unfold Optional
  split <;> simp [map_ok, pure_ok, *]

theorem optional_bind_ok {p : Prop} [Decidable p] {x : Parser α} {d : Cursor}
    {f : Option α → Parser β} {b : β} :
    (if p then (some <$> x >>= f) d else (pure none >>= f) c) = .ok b c' ↔
      ∃ a c₁, Optional p x d c a c₁ ∧ f a c₁ = .ok b c' := by
  simp only [← optional_ok]
  split <;> exact bind_ok

theorem optionalNot_bind_ok {p : Prop} [Decidable p] {x : Parser α} {d : Cursor}
    {f : Option α → Parser β} {b : β} :
    (if p then (pure none >>= f) c else (some <$> x >>= f) d) = .ok b c' ↔
      ∃ a c₁, Optional (¬ p) x d c a c₁ ∧ f a c₁ = .ok b c' := by
  rw [← optional_bind_ok, ite_not]

end Parser

namespace Grammar

open ScriptLang.Parser

variable {c c' : Cursor} {ex : BindingPower → Parser Expr} {ss : Parser (List Stmt)}
  {args : Parser (List Expr)} {e left : Expr}

/-! ## Expressions -/

theorem block_ok {b : Block} :
    block ss c = .ok b c' ↔ c.current.kind = .openCurly ∧ ∃ body c₁, ss c.next = .ok body c₁ ∧
      c₁.current.kind = .closeCurly ∧ b = ⟨body, c₁.next.spanFrom c.current.span.start⟩ ∧
      c' = c₁.next := by
  simp only [block, bind_ok, expect_ok, spanFrom_bind, pure_ok, and_assoc, exists_and_left,
    exists_eq_left]

theorem grouped_ok :
    grouped ex c = .ok e c' ↔ ∃ inner c₁, ex .default c.next = .ok inner c₁ ∧
      c₁.current.kind = .closeParen ∧
      e = .group inner (c₁.next.spanFrom c.current.span.start) ∧ c' = c₁.next := by
  simp only [grouped, advance_bind, bind_ok, expect_ok, spanFrom_bind, pure_ok, and_assoc,
    exists_and_left, exists_eq_left]

theorem runBlock_ok :
    runBlock ss c = .ok e c' ↔ ∃ b, block ss c.next = .ok b c' ∧
      e = .run b (c'.spanFrom c.current.span.start) := by
  simp only [runBlock, advance_bind, bind_ok, spanFrom_bind, pure_ok]
  grind

theorem prefixed_ok {o : UnaryOperator} :
    prefixed ex o c = .ok e c' ↔ ∃ inner, ex .unary c.next = .ok inner c' ∧
      e = .unary o inner ⟨c.current.span.start, inner.span.stop⟩ := by
  simp only [prefixed, advance_bind, bind_ok, pure_ok]
  grind

theorem primary_ok :
    primary c = .ok e c' ↔
      some e = c.current.terminal.primary? c.current.span ∧ c' = c.next := by
  unfold primary Token.terminal
  rw [advance_bind]
  cases c.current.kind with
  | integer =>
    cases Number.integer? c.current.text.toList <;>
      simp [numberOr, map_ok, pure_ok, fail_ok, Terminal.primary?]
  | float =>
    cases Number.float? c.current.text.toList <;>
      simp [numberOr, map_ok, pure_ok, fail_ok, Terminal.primary?]
  | _ => simp [pure_ok, fail_ok, Terminal.primary?]

theorem operand_ok :
    operand ex ss c = .ok e c' ↔
      (some e = c.current.terminal.primary? c.current.span ∧ c' = c.next) ∨
      (c.current.kind = .openParen ∧ grouped ex c = .ok e c') ∨
      (c.current.kind = .runWord ∧ runBlock ss c = .ok e c') ∨
      ∃ o, c.current.kind.prefixOperator? = some o ∧ prefixed ex o c = .ok e c' := by
  unfold operand
  rw [current_bind]
  cases hk : c.current.kind with
  | integer => cases h : Number.integer? c.current.text.toList <;>
      simp [primary_ok, TokenKind.prefixOperator?, Token.terminal, Terminal.primary?, hk, h]
  | float => cases h : Number.float? c.current.text.toList <;>
      simp [primary_ok, TokenKind.prefixOperator?, Token.terminal, Terminal.primary?, hk, h]
  | _ => simp [primary_ok, TokenKind.prefixOperator?, Token.terminal, Terminal.primary?, hk,
      unexpected_ok]

theorem stepped_ok {s : Step} :
    stepped s left c = .ok e c' ↔
      e = .unary (.step s) left ⟨left.span.start, c.current.span.stop⟩ ∧ c' = c.next := by
  simp only [stepped, advance_bind, pure_ok]

theorem called_ok :
    called args left c = .ok e c' ↔ ∃ f s values c₁, left = .name f s ∧
      args c.next = .ok values c₁ ∧ c₁.current.kind = .closeParen ∧
      e = .call f values (c₁.next.spanFrom s.start) ∧ c' = c₁.next := by
  cases left with
  | name f s =>
    simp only [called, advance_bind, bind_ok, expect_ok, spanFrom_bind, pure_ok, and_assoc,
      exists_and_left, exists_eq_left, Expr.name.injEq]
    grind
  | _ => simp [called, position_bind, fail_ok]

theorem ranged_ok :
    ranged ex left c = .ok e c' ↔ ∃ stop, ex .range c.next = .ok stop c' ∧
      e = .range left stop (c.current.kind == .untilWord) (c.current.kind == .downToWord) none
        ⟨left.span.start, stop.span.stop⟩ := by
  simp only [ranged, advance_bind, bind_ok, pure_ok]
  grind

theorem rangeStep_ok :
    rangeStep ex left c = .ok e c' ↔ ∃ a b x d s step, left = .range a b x d none s ∧
      ex .range c.next = .ok step c' ∧
      e = .range a b x d (some step) ⟨s.start, step.span.stop⟩ := by
  cases left with
  | range a b x d old s =>
    cases old with
    | none =>
      simp only [rangeStep, advance_bind, bind_ok, pure_ok, Expr.range.injEq]
      grind
    | some old => simp [rangeStep, advance_bind, fail_ok]
  | _ => simp [rangeStep, advance_bind, fail_ok]

theorem combined_ok {o : BinaryOperator} :
    combined ex o left c = .ok e c' ↔ ∃ right, ex o.bindingPower c.next = .ok right c' ∧
      e = .binary o left right ⟨left.span.start, right.span.stop⟩ := by
  simp only [combined, advance_bind, bind_ok, pure_ok]
  grind

theorem continuation_ok :
    continuation ex args left c = .ok e c' ↔
      (c.current.kind = .openParen ∧ called args left c = .ok e c') ∨
      ((c.current.kind = .dotDot ∨ c.current.kind = .untilWord ∨ c.current.kind = .downToWord) ∧
        ranged ex left c = .ok e c') ∨
      (c.current.kind = .stepWord ∧ rangeStep ex left c = .ok e c') ∨
      (∃ s, c.current.kind.postfixStep? = some s ∧ stepped s left c = .ok e c') ∨
      ∃ o, c.current.kind.binaryOperator? = some o ∧ combined ex o left c = .ok e c' := by
  unfold continuation
  rw [current_bind]
  cases hk : c.current.kind <;>
    simp [TokenKind.postfixStep?, TokenKind.binaryOperator?, unexpected_ok]

/-! ## Statements -/

section

variable {one : Parser Expr} {st : Parser Stmt} {s : Stmt}

theorem typeName_ok {t : DeclaredType} :
    typeName c = .ok t c' ↔
      c.current.kind = .identifier ∧ some t = DeclaredType.ofName? c.current.text ∧
      c' = c.next := by
  simp only [typeName, bind_ok, expectNamed_ok, and_assoc, exists_and_left, exists_eq_left]
  cases DeclaredType.ofName? c.current.text <;> simp [pure_ok, fail_ok]

theorem annotation_ok {t : Option DeclaredType} :
    annotation c = .ok t c' ↔
      Optional (c.current.kind = .colon) typeName c.next c t c' := by
  rw [← optional_ok, annotation, eat_bind]
  rfl

theorem declaration_ok :
    declaration one c = .ok s c' ↔ c.next.current.kind = .identifier ∧ ∃ type c₁,
      annotation c.next.next = .ok type c₁ ∧ ∃ value,
      Optional (c₁.current.kind = .assignment) one c₁.next c₁ value c' ∧
      ¬ (type.isNone && value.isNone) ∧
      s = .declare c.next.current.text (c.current.kind == .valWord) type value
        (c'.spanFrom c.current.span.start) := by
  simp only [declaration, advance_bind, eat_bind, bind_ok, expectNamed_ok, and_assoc,
    exists_and_left, exists_eq_left, if_true, Bool.false_eq_true, if_false, optional_bind_ok,
    check_ok, spanFrom_bind, pure_ok]
  grind

theorem printing_ok :
    printing one c = .ok s c' ↔ c.next.current.kind = .openParen ∧ ∃ value c₁,
      Optional (c.next.next.current.kind ≠ .closeParen) one c.next.next c.next.next value c₁ ∧
      c₁.current.kind = .closeParen ∧
      s = .print value (c.current.kind == .printlnWord)
        (c₁.next.spanFrom c.current.span.start) ∧ c' = c₁.next := by
  simp only [printing, advance_bind, current_bind, bind_ok, expect_ok, and_assoc, exists_and_left,
    exists_eq_left, ite_run, optionalNot_bind_ok, spanFrom_bind, pure_ok, ne_eq]

theorem condition_ok :
    condition one c = .ok e c' ↔ c.current.kind = .openParen ∧ ∃ c₁,
      one c.next = .ok e c₁ ∧ c₁.current.kind = .closeParen ∧ c' = c₁.next := by
  simp only [condition, bind_ok, expect_ok, and_assoc, exists_and_left, exists_eq_left, pure_ok]
  grind

theorem branching_ok :
    branching one st c = .ok s c' ↔ ∃ test c₁, condition one c.next = .ok test c₁ ∧
      ∃ thenBody c₂, st c₁ = .ok thenBody c₂ ∧ ∃ elseBody,
      Optional (c₂.current.kind = .elseWord) st c₂.next c₂ elseBody c' ∧
      s = .branch test thenBody elseBody (c'.spanFrom c.current.span.start) := by
  simp only [branching, advance_bind, eat_bind, bind_ok, if_true, Bool.false_eq_true, if_false,
    optional_bind_ok, spanFrom_bind, pure_ok]
  grind

theorem whileLoop_ok :
    whileLoop one st c = .ok s c' ↔ ∃ test c₁, condition one c.next = .ok test c₁ ∧
      ∃ body, st c₁ = .ok body c' ∧
      s = .whileLoop test body (c'.spanFrom c.current.span.start) := by
  simp only [whileLoop, advance_bind, bind_ok, spanFrom_bind, pure_ok]
  grind

theorem doWhile_ok :
    doWhile one st c = .ok s c' ↔ ∃ body c₁, st c.next = .ok body c₁ ∧
      c₁.current.kind = .whileWord ∧ ∃ test, condition one c₁.next = .ok test c' ∧
      s = .doWhile body test (c'.spanFrom c.current.span.start) := by
  simp only [doWhile, advance_bind, bind_ok, expect_ok, and_assoc, exists_and_left,
    exists_eq_left, spanFrom_bind, pure_ok]
  grind

theorem forLoop_ok :
    forLoop one st c = .ok s c' ↔ c.next.current.kind = .openParen ∧
      c.next.next.current.kind = .identifier ∧ c.next.next.next.current.kind = .inWord ∧
      ∃ range c₁, one c.next.next.next.next = .ok range c₁ ∧ c₁.current.kind = .closeParen ∧
      range.ungroup.isRange ∧ ∃ body, st c₁.next = .ok body c' ∧
      s = .forLoop c.next.next.current.text range body (c'.spanFrom c.current.span.start) := by
  simp only [forLoop, advance_bind, bind_ok, expect_ok, and_assoc, exists_and_left,
    exists_eq_left, checkNot_ok, spanFrom_bind, pure_ok]
  grind

theorem named_ok :
    named one c = .ok s c' ↔
      (∃ o, (c.peek 1).kind.assignOperator? = some o ∧ ∃ value, one c.next.next = .ok value c' ∧
        s = .assign c.current.text o (some value) (c'.spanFrom c.current.span.start)) ∨
      ((c.peek 1).kind.assignOperator? = none ∧
        ∃ step, (c.peek 1).kind.postfixStep? = some step ∧ c' = c.next.next ∧
        s = .assign c.current.text (.step step) none (c'.spanFrom c.current.span.start)) ∨
      ((c.peek 1).kind.assignOperator? = none ∧ (c.peek 1).kind.postfixStep? = none ∧
        ∃ value, one c = .ok value c' ∧ s = .expression value) := by
  unfold named
  rw [get_bind]
  cases (c.peek 1).kind.assignOperator? with
  | some o =>
    simp only [advance_bind, bind_ok, spanFrom_bind, pure_ok]
    grind
  | none =>
    cases (c.peek 1).kind.postfixStep? with
    | some step =>
      simp only [advance_bind, spanFrom_bind, pure_ok]
      grind
    | none =>
      simp only [bind_ok, pure_ok]
      grind

theorem steppedFirst_ok {step : Step} :
    steppedFirst one step c = .ok s c' ↔
      ((c.peek 1).kind = .identifier ∧ c' = c.next.next ∧
        s = .assign c.next.current.text (.step step) none (c'.spanFrom c.current.span.start)) ∨
      ((c.peek 1).kind ≠ .identifier ∧ ∃ value, one c = .ok value c' ∧ s = .expression value) := by
  unfold steppedFirst
  rw [get_bind]
  simp only [ite_run, ite_eq_iff, bind_ok, advance_bind, spanFrom_bind, pure_ok]
  grind

theorem parameter_ok {p : Parameter} :
    parameter c = .ok p c' ↔ c.current.kind = .identifier ∧ c.next.current.kind = .colon ∧
      ∃ t, typeName c.next.next = .ok t c' ∧ p = ⟨c.current.text, t⟩ := by
  simp only [parameter, bind_ok, expect_ok, and_assoc, exists_and_left, exists_eq_left, pure_ok]
  grind

theorem separated_ok {α : Type} {item : Parser α} {others : Parser (List α)} {as : List α} :
    separated item others c = .ok as c' ↔
      (c.current.kind = .closeParen ∧ as = [] ∧ c' = c) ∨
      (c.current.kind ≠ .closeParen ∧ ∃ first c₁, item c = .ok first c₁ ∧
        ((c₁.current.kind = .comma ∧ ∃ rest, others c₁.next = .ok rest c' ∧ as = first :: rest) ∨
          (c₁.current.kind ≠ .comma ∧ as = [first] ∧ c' = c₁))) := by
  unfold separated
  rw [current_bind]
  simp only [ite_run, ite_eq_iff, bind_ok, eat_bind, if_true, Bool.false_eq_true, if_false,
    pure_ok]
  grind

theorem function_ok {ps : Parser (List Parameter)} :
    function ps ss c = .ok s c' ↔ c.next.current.kind = .identifier ∧
      c.next.next.current.kind = .openParen ∧ ∃ parameters c₁,
      ps c.next.next.next = .ok parameters c₁ ∧ c₁.current.kind = .closeParen ∧
      ∃ type c₂, annotation c₁.next = .ok type c₂ ∧ ∃ body, block ss c₂ = .ok body c' ∧
      s = .function ⟨c.next.current.text, parameters, type.getD .unit, body,
        c'.spanFrom c.current.span.start⟩ := by
  simp only [function, advance_bind, bind_ok, expect_ok, and_assoc, exists_and_left,
    exists_eq_left, spanFrom_bind, pure_ok]
  grind

theorem returning_ok :
    returning one c = .ok s c' ↔ ∃ value,
      Optional (c.next.current.kind.beginsOperand) one c.next c.next value c' ∧
      s = .return value (c'.spanFrom c.current.span.start) := by
  simp only [returning, advance_bind, current_bind, ite_run, optional_bind_ok, spanFrom_bind,
    pure_ok]
  grind

end

/-! ## The knot -/

section

variable {n : Nat} {s : Stmt}

theorem semicolons_ok {u : Unit} :
    semicolons (n + 1) c = .ok u c' ↔
      (c.current.kind = .semicolon ∧ semicolons n c.next = .ok u c') ∨
      (c.current.kind ≠ .semicolon ∧ c' = c) := by
  simp only [semicolons, eat_bind, if_true, Bool.false_eq_true, if_false, ite_eq_iff, pure_ok,
    true_and]

theorem expression_ok {p : BindingPower} :
    expression (n + 1) p c = .ok e c' ↔ ∃ left c₁,
      operand (expression n) (statements n .closeCurly) c = .ok left c₁ ∧
      extended n p left c₁ = .ok e c' := by
  rw [expression, bind_ok]

theorem extended_ok {p : BindingPower} :
    extended (n + 1) p left c = .ok e c' ↔
      (p < c.current.kind.bindingPower ∧ ∃ wider c₁,
        continuation (expression n) (arguments n) left c = .ok wider c₁ ∧
        extended n p wider c₁ = .ok e c') ∨
      (¬ p < c.current.kind.bindingPower ∧ e = left ∧ c' = c) := by
  rw [extended, current_bind, ite_run, ite_eq_iff, bind_ok, pure_ok]

theorem statement_ok :
    statement (n + 1) c = .ok s c' ↔ ∃ c₁,
      anyStatement (expression n .default) (statement n) (statements n .closeCurly)
        (parameters n) c = .ok s c₁ ∧
      semicolons n c₁ = .ok () c' := by
  rw [statement, bind_ok]
  simp only [bind_ok, pure_ok]
  grind

theorem statements_ok {close : TokenKind} {body : List Stmt} :
    statements (n + 1) close c = .ok body c' ↔
      (c.current.kind = close ∧ body = [] ∧ c' = c) ∨
      (c.current.kind ≠ close ∧ c.current.kind = .semicolon ∧
        statements n close c.next = .ok body c') ∨
      (c.current.kind ≠ close ∧ c.current.kind ≠ .semicolon ∧ ∃ first c₁,
        statement n c = .ok first c₁ ∧ ∃ rest, statements n close c₁ = .ok rest c' ∧
        body = first :: rest) := by
  rw [statements, current_bind]
  simp only [eat_bind, if_true, Bool.false_eq_true, if_false, ite_run, ite_eq_iff, bind_ok,
    pure_ok]
  grind

end

end Grammar

end ScriptLang
