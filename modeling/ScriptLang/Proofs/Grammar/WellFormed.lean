import ScriptLang.Proofs.Grammar.Rule
import ScriptLang.Proofs.Tree.Grouping
import ScriptLang.Proofs.Tree.WellFormed

/-!
# Parsed programs are well-formed

Each rule makes well-formed trees of the well-formed trees its parts give. The three
checks that no later stage makes again are in the rules for declarations, assignments
and `for`, and the operator of a range is a single token.
-/

namespace ScriptLang

/-- A literal or a name is well-formed. -/
theorem Terminal.wellFormed_of_primary? {t : Terminal} {s : Span} {e : Expr}
    (h : some e = t.primary? s) : wellFormed.InExpr e := by
  cases t with
  | symbol k =>
    cases k <;> simp only [primary?, reduceCtorEq, Option.some.injEq] at h <;> subst h <;> trivial
  | _ =>
    simp only [primary?, Option.some.injEq] at h
    subst h
    trivial

namespace Grammar

open ScriptLang.Parser

variable {c c' : Cursor} {ex : BindingPower → Parser Expr} {ss : Parser (List Stmt)}
  {e left : Expr}

/-! ## Expressions -/

section

variable (hex : ∀ {p c e c'}, ex p c = .ok e c' → wellFormed.InExpr e)
  (hss : ∀ {c body c'}, ss c = .ok body c' → wellFormed.InStmts body)

include hss in
theorem block_wellFormed {b : Block} (h : block ss c = .ok b c') :
    wellFormed.InStmts b.body := by
  obtain ⟨-, body, c₁, hb, -, rfl, -⟩ := block_ok.mp h
  exact hss hb

include hex hss in
theorem operand_wellFormed (h : operand ex ss c = .ok e c') : wellFormed.InExpr e := by
  rcases operand_ok.mp h with ⟨he, -⟩ | ⟨-, he⟩ | ⟨-, he⟩ | ⟨o, -, he⟩
  · exact Terminal.wellFormed_of_primary? he
  · obtain ⟨inner, c₁, hi, -, rfl, -⟩ := grouped_ok.mp he
    exact ⟨trivial, hex hi⟩
  · obtain ⟨⟨body, _⟩, hb, rfl⟩ := runBlock_ok.mp he
    exact ⟨trivial, block_wellFormed hss hb⟩
  · obtain ⟨inner, hi, rfl⟩ := prefixed_ok.mp he
    exact ⟨trivial, hex hi⟩

include hex in
/-- One token tells whether a range leaves out its stop or descends. -/
theorem ranged_wellFormed (hl : wellFormed.InExpr left) (h : ranged ex left c = .ok e c') :
    wellFormed.InExpr e := by
  obtain ⟨stop, hs, rfl⟩ := ranged_ok.mp h
  refine ⟨?_, hl, hex hs, trivial⟩
  rintro ⟨hx, hd⟩
  rw [beq_iff_eq] at hx hd
  rw [hx] at hd
  cases hd

include hex in
/-- A step leaves the rest of its range as it was. -/
theorem rangeStep_wellFormed (hl : wellFormed.InExpr left) (h : rangeStep ex left c = .ok e c') :
    wellFormed.InExpr e := by
  obtain ⟨a, b, x, d, s, step, rfl, hs, rfl⟩ := rangeStep_ok.mp h
  obtain ⟨hxd, ha, hb, -⟩ := hl
  exact ⟨hxd, ha, hb, hex hs⟩

include hex in
theorem continuation_wellFormed {args : Parser (List Expr)}
    (hargs : ∀ {c es c'}, args c = .ok es c' → wellFormed.InExprs es)
    (hl : wellFormed.InExpr left) (h : continuation ex args left c = .ok e c') :
    wellFormed.InExpr e := by
  rcases continuation_ok.mp h with ⟨-, he⟩ | ⟨-, he⟩ | ⟨-, he⟩ | ⟨s, -, he⟩ | ⟨o, -, he⟩
  · obtain ⟨f, s, es, c₁, rfl, ha, -, rfl, -⟩ := called_ok.mp he
    exact ⟨trivial, hargs ha⟩
  · exact ranged_wellFormed hex hl he
  · exact rangeStep_wellFormed hex hl he
  · obtain ⟨rfl, -⟩ := stepped_ok.mp he
    exact ⟨trivial, hl⟩
  · obtain ⟨right, hr, rfl⟩ := combined_ok.mp he
    exact ⟨trivial, hl, hex hr⟩

end

/-! ## Statements -/

section

variable {one : Parser Expr} {st : Parser Stmt} {s : Stmt}
  (hone : ∀ {c e c'}, one c = .ok e c' → wellFormed.InExpr e)
  (hst : ∀ {c s c'}, st c = .ok s c' → wellFormed.InStmt s)
  (hss : ∀ {c body c'}, ss c = .ok body c' → wellFormed.InStmts body)

include hone in
theorem optional_wellFormed {p : Prop} {d : Cursor} {value : Option Expr}
    (h : Optional p one d c value c') : wellFormed.InOption value := by
  rcases h with ⟨-, e, he, rfl⟩ | ⟨-, rfl, -⟩
  · exact hone he
  · trivial

include hone in
theorem condition_wellFormed (h : condition one c = .ok e c') : wellFormed.InExpr e := by
  obtain ⟨-, c₁, he, -, -⟩ := condition_ok.mp h
  exact hone he

include hone in
theorem declaration_wellFormed (h : declaration one c = .ok s c') : wellFormed.InStmt s := by
  obtain ⟨-, type, c₁, -, value, hv, hn, rfl⟩ := declaration_ok.mp h
  refine ⟨?_, optional_wellFormed hone hv⟩
  cases type with
  | some t => exact .inl rfl
  | none =>
    cases value with
    | some v => exact .inr rfl
    | none => exact absurd rfl hn

include hone in
theorem named_wellFormed (h : named one c = .ok s c') : wellFormed.InStmt s := by
  rcases named_ok.mp h with ⟨o, ho, value, hv, rfl⟩ | ⟨-, step, -, -, rfl⟩ | ⟨-, -, value, hv, rfl⟩
  · have hstep := (TokenKind.token_of_assignOperator ho).2
    refine ⟨?_, hone hv⟩
    change false = true ↔ o.isStep = true
    rw [hstep]
  · exact ⟨Iff.rfl, trivial⟩
  · exact ⟨trivial, hone hv⟩

include hone in
theorem steppedFirst_wellFormed {step : Step} (h : steppedFirst one step c = .ok s c') :
    wellFormed.InStmt s := by
  rcases steppedFirst_ok.mp h with ⟨-, -, rfl⟩ | ⟨-, value, hv, rfl⟩
  · exact ⟨Iff.rfl, trivial⟩
  · exact ⟨trivial, hone hv⟩

include hone hst in
theorem branching_wellFormed (h : branching one st c = .ok s c') : wellFormed.InStmt s := by
  obtain ⟨test, c₁, ht, a, c₂, ha, b, hb, rfl⟩ := branching_ok.mp h
  refine ⟨trivial, condition_wellFormed hone ht, hst ha, ?_⟩
  rcases hb with ⟨-, b, hb, rfl⟩ | ⟨-, rfl, -⟩
  · exact hst hb
  · trivial

include hone hst in
/-- What a `for` runs over is a range, in whatever parentheses. -/
theorem forLoop_wellFormed (h : forLoop one st c = .ok s c') : wellFormed.InStmt s := by
  obtain ⟨-, -, -, range, c₁, hr, -, hrange, body, hb, rfl⟩ := forLoop_ok.mp h
  exact ⟨hrange, hone hr, hst hb⟩

include hone hst hss in
theorem anyStatement_wellFormed {ps : Parser (List Parameter)}
    (h : anyStatement one st ss ps c = .ok s c') : wellFormed.InStmt s := by
  unfold anyStatement at h
  rw [current_bind] at h
  have hexpr : (one >>= fun e => pure (.expression e)) c = .ok s c' → wellFormed.InStmt s := by
    intro h
    obtain ⟨e, _, he, h⟩ := bind_ok.mp h
    obtain ⟨rfl, -⟩ := pure_ok.mp h
    exact ⟨trivial, hone he⟩
  cases hk : c.current.kind with rw [hk] at h
  | varWord | valWord => exact declaration_wellFormed hone h
  | funWord =>
    obtain ⟨-, -, _, _, -, -, _, _, -, ⟨body, _⟩, hb, rfl⟩ := function_ok.mp h
    exact ⟨trivial, block_wellFormed hss hb⟩
  | ifWord => exact branching_wellFormed hone hst h
  | whileWord =>
    obtain ⟨test, _, ht, body, hb, rfl⟩ := whileLoop_ok.mp h
    exact ⟨trivial, condition_wellFormed hone ht, hst hb⟩
  | doWord =>
    obtain ⟨body, _, hb, -, test, ht, rfl⟩ := doWhile_ok.mp h
    exact ⟨trivial, hst hb, condition_wellFormed hone ht⟩
  | forWord => exact forLoop_wellFormed hone hst h
  | returnWord =>
    obtain ⟨value, hv, rfl⟩ := returning_ok.mp h
    exact ⟨trivial, optional_wellFormed hone hv⟩
  | breakWord | continueWord =>
    simp only [advance_bind, pure_ok] at h
    obtain ⟨rfl, -⟩ := h
    trivial
  | printWord | printlnWord =>
    obtain ⟨-, value, _, hv, -, rfl, -⟩ := printing_ok.mp h
    exact ⟨trivial, optional_wellFormed hone hv⟩
  | openCurly =>
    obtain ⟨⟨body, _⟩, _, hb, h⟩ := bind_ok.mp h
    obtain ⟨rfl, -⟩ := pure_ok.mp h
    exact ⟨trivial, block_wellFormed hss hb⟩
  | identifier => exact named_wellFormed hone h
  | plusPlus | minusMinus => exact steppedFirst_wellFormed hone h
  | _ => exact hexpr h

end

/-! ## The knot -/

/-- What the rules of the knot make on `n` units of fuel is well-formed. -/
structure Forming (n : Nat) : Prop where
  expression : ∀ {p c e c'}, expression n p c = .ok e c' → wellFormed.InExpr e
  extended : ∀ {p left c e c'}, extended n p left c = .ok e c' → wellFormed.InExpr left →
    wellFormed.InExpr e
  arguments : ∀ {c es c'}, arguments n c = .ok es c' → wellFormed.InExprs es
  statement : ∀ {c s c'}, statement n c = .ok s c' → wellFormed.InStmt s
  statements : ∀ {close c body c'}, statements n close c = .ok body c' → wellFormed.InStmts body

theorem forming (n : Nat) : Forming n := by
  -- The rules call one another on a unit of fuel less, whatever they read.
  induction n with
  | zero =>
    constructor
    all_goals intros; exact absurd ‹_› outOfFuel_ok
  | succ n ih =>
    constructor
    · intro p c e c' h
      obtain ⟨left, c₁, ho, h⟩ := expression_ok.mp h
      exact ih.extended h (operand_wellFormed ih.expression ih.statements ho)
    · intro p left c e c' h hl
      rcases extended_ok.mp h with ⟨-, wider, c₁, hc, h⟩ | ⟨-, rfl, -⟩
      · exact ih.extended h (continuation_wellFormed ih.expression ih.arguments hl hc)
      · exact hl
    · intro c es c' h
      rcases separated_ok.mp h with ⟨-, rfl, -⟩ | ⟨-, first, c₁, hf, h⟩
      · trivial
      rcases h with ⟨-, rest, hr, rfl⟩ | ⟨-, rfl, -⟩
      · exact ⟨ih.expression hf, ih.arguments hr⟩
      · exact ⟨ih.expression hf, trivial⟩
    · intro c s c' h
      obtain ⟨c₁, hs, -⟩ := statement_ok.mp h
      exact anyStatement_wellFormed ih.expression ih.statement ih.statements hs
    · intro close c body c' h
      rcases statements_ok.mp h with ⟨-, rfl, -⟩ | ⟨-, -, h⟩ | ⟨-, -, first, c₁, hf, rest, hr, rfl⟩
      · trivial
      · exact ih.statements h
      · exact ⟨ih.statement hf, ih.statements hr⟩

end Grammar

/-- What a list of tokens spells is well-formed. -/
theorem Program.ofTokens_wellFormed {tokens : List Token} {file : String} {p : Program}
    (h : Program.ofTokens tokens file = .ok p) : wellFormed.InProgram p := by
  unfold Program.ofTokens at h
  split at h
  case h_2 => cases h
  case h_1 body c hs =>
    cases h
    exact (Grammar.forming _).statements hs

end ScriptLang
