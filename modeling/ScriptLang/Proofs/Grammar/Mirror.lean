import ScriptLang.Proofs.Grammar.Outlook

/-!
# Rules stop at the end of the file

What every rule does is told by the tokens up to the first end of the file. The runs may have
different fuel; one that has too little gives no answer. Only a statement can get beyond the
end of the file: the semicolons behind it may be followed by other tokens there.
-/

namespace ScriptLang

namespace Grammar

open ScriptLang.Parser

variable {o : Outlook} {ex ex' : BindingPower → Parser Expr} {ss ss' : Parser (List Stmt)}
  {args args' : Parser (List Expr)} {left : Expr} {c : Cursor}

/-! ## Expressions -/

section

variable (hex : ∀ p, Mirrors o Unreached (ex p) (ex' p)) (hss : Mirrors o Unreached ss ss')
  (hargs : Mirrors o Unreached args args')

include hss in
theorem mirrors_block : Mirrors o Unreached (block ss) (block ss') :=
  .bindNear (.expect (by decide)) fun _ => .bindNear hss fun _ =>
    .bindNear (.expect (by decide)) fun _ => .bindNear (.spanFrom _) fun _ => .pure _

theorem mirrors_numberOr {α : Type} (t : Token) (value : Option α) :
    Mirrors o Unreached (numberOr t value) (numberOr t value) := by
  cases value with
  | some => exact .pure _
  | none => exact .fail

theorem mirrors_primary (hc : c.current.kind ≠ .eof) :
    MirrorsAt o Unreached primary primary c := by
  refine .advance_bind hc fun t => ?_
  cases t.kind with
  | integer | float => exact .bindNear (mirrors_numberOr t _) fun _ => .pure _
  | string | trueWord | falseWord | identifier => exact .pure _
  | _ => exact .fail

include hex in
theorem mirrors_prefixed (operator : UnaryOperator) (hc : c.current.kind ≠ .eof) :
    MirrorsAt o Unreached (prefixed ex operator) (prefixed ex' operator) c :=
  .advance_bind hc fun _ => .bindNear (hex .unary) fun _ => .pure _

include hex in
theorem mirrors_grouped (hc : c.current.kind ≠ .eof) :
    MirrorsAt o Unreached (grouped ex) (grouped ex') c :=
  .advance_bind hc fun _ => .bindNear (hex .default) fun _ =>
    .bindNear (.expect (by decide)) fun _ => .bindNear (.spanFrom _) fun _ => .pure _

include hss in
theorem mirrors_runBlock (hc : c.current.kind ≠ .eof) :
    MirrorsAt o Unreached (runBlock ss) (runBlock ss') c :=
  .advance_bind hc fun _ => .bindNear (mirrors_block hss) fun _ =>
    .bindNear (.spanFrom _) fun _ => .pure _

include hex hss in
theorem mirrors_operand : Mirrors o Unreached (operand ex ss) (operand ex' ss') := by
  refine .current_bind (fun c _ => ?_) fun c t hl he _ _ => ?_
  · dsimp only
    cases hk : c.current.kind with
    | integer | float | string | trueWord | falseWord | identifier =>
      exact mirrors_primary (by rw [hk]; decide)
    | openParen => exact mirrors_grouped hex (by rw [hk]; decide)
    | runWord => exact mirrors_runBlock hss (by rw [hk]; decide)
    | not | dash | plus | plusPlus | minusMinus =>
      exact mirrors_prefixed hex _ (by rw [hk]; decide)
    | _ => exact Mirrors.unexpected c
  · rw [he]
    exact .lenient hl

theorem mirrors_stepped (s : Step) (hc : c.current.kind ≠ .eof) :
    MirrorsAt o Unreached (stepped s left) (stepped s left) c :=
  .advance_bind hc fun _ => .pure _

include hargs in
theorem mirrors_called (hc : c.current.kind ≠ .eof) :
    MirrorsAt o Unreached (called args left) (called args' left) c := by
  cases left with
  | name =>
    exact .advance_bind hc fun _ => .bindNear hargs fun _ =>
      .bindNear (.expect (by decide)) fun _ => .bindNear (.spanFrom _) fun _ => .pure _
  | _ => exact .position_fail hc

include hex in
theorem mirrors_ranged (hc : c.current.kind ≠ .eof) :
    MirrorsAt o Unreached (ranged ex left) (ranged ex' left) c :=
  .advance_bind hc fun _ => .bindNear (hex .range) fun _ => .pure _

include hex in
theorem mirrors_rangeStep (hc : c.current.kind ≠ .eof) :
    MirrorsAt o Unreached (rangeStep ex left) (rangeStep ex' left) c := by
  refine .advance_bind hc fun t => ?_
  cases left with
  | range a b x d step s =>
    cases step with
    | none => exact .bindNear (hex .range) fun _ => .pure _
    | some => exact .fail
  | _ => exact .fail

include hex in
theorem mirrors_combined (operator : BinaryOperator) (hc : c.current.kind ≠ .eof) :
    MirrorsAt o Unreached (combined ex operator left) (combined ex' operator left) c :=
  .advance_bind hc fun _ => .bindNear (hex operator.bindingPower) fun _ => .pure _

include hex hargs in
theorem mirrors_continuation :
    Mirrors o Unreached (continuation ex args left) (continuation ex' args' left) := by
  refine .current_bind (fun c _ => ?_) fun c t hl he _ _ => ?_
  · dsimp only
    cases hk : c.current.kind with
    | openParen => exact mirrors_called hargs (by rw [hk]; decide)
    | dotDot | untilWord | downToWord => exact mirrors_ranged hex (by rw [hk]; decide)
    | stepWord => exact mirrors_rangeStep hex (by rw [hk]; decide)
    | plusPlus | minusMinus => exact mirrors_stepped _ (by rw [hk]; decide)
    | plus | dash | star | slash | percent | less | lessEquals | greater | greaterEquals
    | equals | notEquals | and | or => exact mirrors_combined hex _ (by rw [hk]; decide)
    | _ => exact Mirrors.unexpected c
  · rw [he]
    exact .lenient hl

end

/-! ## Statements -/

/-- Statements that are equal up to spans. -/
abbrev SameBare (s s' : Stmt) : Prop := s.bare = s'.bare

section

variable {one one' : Parser Expr} {st st' : Parser Stmt} {ps ps' : Parser (List Parameter)}
  (hone : Mirrors o Unreached one one') (hst : Mirrors o SameBare st st')
  (hss : Mirrors o Unreached ss ss') (hps : Mirrors o Unreached ps ps')

theorem mirrors_typeName : Mirrors o Unreached typeName typeName := by
  refine .bindNear (.expectNamed (by decide) _) fun t => ?_
  cases DeclaredType.ofName? t.text with
  | some => exact .pure _
  | none => exact .fail

theorem mirrors_annotation : Mirrors o Unreached annotation annotation :=
  .eat_bind (by decide) fun _ => .ite Iff.rfl (.bindNear mirrors_typeName fun _ => .pure _)
    (.pure _)

include hone in
theorem mirrors_declaration (hc : c.current.kind ≠ .eof) :
    MirrorsAt o SameBare (declaration one) (declaration one') c :=
  .advance_bind hc fun _ => .bindNear (.expectNamed (by decide) _) fun _ =>
    .bindNear mirrors_annotation fun _ => .eat_bind (by decide) fun _ =>
      .optional Iff.rfl hone fun _ => .ite Iff.rfl (.bindNear .fail fun _ =>
        .bindNear (.spanFrom _) fun _ => .pure _) (.bindNear (.spanFrom _) fun _ => .pure _)

include hone in
theorem mirrors_named (hc : c.current.kind ≠ .eof) :
    MirrorsAt o SameBare (named one) (named one') c := by
  unfold MirrorsAt named
  rw [Parser.get_bind, Parser.get_bind]
  rw [o.second_eq hc (f := TokenKind.assignOperator?) rfl,
    o.second_eq hc (f := TokenKind.postfixStep?) rfl]
  have hne {α : Type} {f : TokenKind → Option α} {a : α} (h : f (c.peek 1).kind = some a)
      (hf : f .eof = none) : (c.peek 1).kind ≠ .eof := fun he => by
    rw [he, hf] at h
    cases h
  cases ha : (c.peek 1).kind.assignOperator? with
  | some =>
    exact MirrorsAt.advance_advance_bind hc (hne ha rfl) fun _ _ => .bindNear hone fun _ =>
      .bindNear (.spanFrom _) fun _ => .pure _
  | none =>
    cases hp : (c.peek 1).kind.postfixStep? with
    | some =>
      exact MirrorsAt.advance_advance_bind hc (hne hp rfl) fun _ _ =>
        .bindNear (.spanFrom _) fun _ => .pure _
    | none => exact Mirrors.bindNear hone (fun _ => .pure _) c

include hone in
theorem mirrors_steppedFirst (step : Step) (hc : c.current.kind ≠ .eof) :
    MirrorsAt o SameBare (steppedFirst one step) (steppedFirst one' step) c := by
  unfold MirrorsAt steppedFirst
  rw [Parser.get_bind, Parser.get_bind]
  have hkind : ((o.see c).peek 1).kind = .identifier ↔ (c.peek 1).kind = .identifier := by
    rw [o.second_eq hc (f := (· = TokenKind.identifier)) (by simp)]
  simp only [hkind]
  split
  · next h =>
    exact MirrorsAt.advance_advance_bind hc (by rw [h]; decide) fun _ _ =>
      .bindNear (.spanFrom _) fun _ => .pure _
  · exact Mirrors.bindNear hone (fun _ => .pure _) c

include hone in
theorem mirrors_printing (hc : c.current.kind ≠ .eof) :
    MirrorsAt o SameBare (printing one) (printing one') c :=
  .advance_bind hc fun _ => .bindNear (.expect (by decide)) fun _ =>
    .unexcluded (· = .closeParen) (by simp) hone fun _ =>
      .bindNear (.expect (by decide)) fun _ => .bindNear (.spanFrom _) fun _ => .pure _

include hone in
theorem mirrors_condition : Mirrors o Unreached (condition one) (condition one') :=
  .bindNear (.expect (by decide)) fun _ => .bindNear hone fun _ =>
    .bindNear (.expect (by decide)) fun _ => .pure _

include hone hst in
theorem mirrors_branching (hc : c.current.kind ≠ .eof) :
    MirrorsAt o SameBare (branching one st) (branching one' st') c := by
  refine .advance_bind hc fun _ => .bindNear (mirrors_condition hone) fun test =>
    .bind hst (fun a => ?_) fun a b hab => ?_
  · refine .eat_bind (by decide) fun _ => .ite Iff.rfl ?_ ?_
    · rw [bind_map_left, bind_map_left]
      refine .bind hst (fun _ => .bindNear (.spanFrom _) fun _ => .pure _) fun s s' hs => ?_
      exact .spanned fun _ _ => by
        simp only [SameBare, Stmt.bare, Stmt.bareOption, hs]
    · exact .bindNear (.pure none) fun _ => .bindNear (.spanFrom _) fun _ => .pure _
  · refine .else_bind ?_
    exact .spanned fun _ _ => by simp only [SameBare, Stmt.bare, hab]

include hone hst in
theorem mirrors_whileLoop (hc : c.current.kind ≠ .eof) :
    MirrorsAt o SameBare (whileLoop one st) (whileLoop one' st') c :=
  .advance_bind hc fun _ => .bindNear (mirrors_condition hone) fun _ =>
    .bind hst (fun _ => .bindNear (.spanFrom _) fun _ => .pure _) fun a b hab =>
      .spanned fun _ _ => by simp only [SameBare, Stmt.bare, hab]

include hone hst in
theorem mirrors_doWhile (hc : c.current.kind ≠ .eof) :
    MirrorsAt o SameBare (doWhile one st) (doWhile one' st') c :=
  .advance_bind hc fun _ => .bind hst (fun _ => .bindNear (.expect (by decide)) fun _ =>
    .bindNear (mirrors_condition hone) fun _ => .bindNear (.spanFrom _) fun _ => .pure _)
    fun _ _ _ => .expect_bind (by decide)

include hone hst in
theorem mirrors_forLoop (hc : c.current.kind ≠ .eof) :
    MirrorsAt o SameBare (forLoop one st) (forLoop one' st') c := by
  refine .advance_bind hc fun _ => .bindNear (.expect (by decide)) fun _ =>
    .bindNear (.expect (by decide)) fun n => .bindNear (.expect (by decide)) fun _ =>
      .bindNear hone fun range => .bindNear (.expect (by decide)) fun _ =>
        .ite Iff.rfl ?_ (.bindNear .fail fun _ => ?_)
  all_goals
    refine .bind hst (fun _ => .bindNear (.spanFrom _) fun _ => .pure _) fun a b hab => ?_
    exact .spanned fun _ _ => by simp only [SameBare, Stmt.bare, hab]

theorem mirrors_parameter : Mirrors o Unreached parameter parameter :=
  .bindNear (.expect (by decide)) fun _ => .bindNear (.expect (by decide)) fun _ =>
    .bindNear mirrors_typeName fun _ => .pure _

theorem mirrors_separated {α : Type} {item item' : Parser α} {others others' : Parser (List α)}
    (hitem : Mirrors o Unreached item item') (hothers : Mirrors o Unreached others others') :
    Mirrors o Unreached (separated item others) (separated item' others') :=
  .kind_ite (· = .closeParen) (by simp) (.pure _)
    (.bindNear hitem fun _ => .eat_bind (by decide) fun _ => .ite Iff.rfl
      (.bindNear hothers fun _ => .pure _) (.pure _))

include hps hss in
theorem mirrors_function (hc : c.current.kind ≠ .eof) :
    MirrorsAt o SameBare (function ps ss) (function ps' ss') c :=
  .advance_bind hc fun _ => .bindNear (.expect (by decide)) fun _ =>
    .bindNear (.expect (by decide)) fun _ => .bindNear hps fun _ =>
      .bindNear (.expect (by decide)) fun _ => .bindNear mirrors_annotation fun _ =>
        .bindNear (mirrors_block hss) fun _ => .bindNear (.spanFrom _) fun _ => .pure _

include hone in
theorem mirrors_returning (hc : c.current.kind ≠ .eof) :
    MirrorsAt o SameBare (returning one) (returning one') c :=
  .advance_bind hc fun _ => .announced (·.beginsOperand = true) rfl hone fun _ =>
    .bindNear (.spanFrom _) fun _ => .pure _

include hone hst hss hps in
theorem mirrors_anyStatement :
    Mirrors o SameBare (anyStatement one st ss ps) (anyStatement one' st' ss' ps') := by
  have hexpression : Mirrors o SameBare (do return .expression (← one))
      (do return .expression (← one')) := .bindNear hone fun _ => .pure _
  refine .current_bind (fun c _ => ?_) fun c t hl he ht hc => ?_
  · cases hk : c.current.kind with
    | varWord | valWord => exact mirrors_declaration hone (by rw [hk]; decide)
    | funWord => exact mirrors_function hss hps (by rw [hk]; decide)
    | ifWord => exact mirrors_branching hone hst (by rw [hk]; decide)
    | whileWord => exact mirrors_whileLoop hone hst (by rw [hk]; decide)
    | doWord => exact mirrors_doWhile hone hst (by rw [hk]; decide)
    | forWord => exact mirrors_forLoop hone hst (by rw [hk]; decide)
    | returnWord => exact mirrors_returning hone (by rw [hk]; decide)
    | breakWord | continueWord => exact .advance_bind (by rw [hk]; decide) fun _ => .pure _
    | printWord | printlnWord => exact mirrors_printing hone (by rw [hk]; decide)
    | openCurly => exact Mirrors.bindNear (mirrors_block hss) (fun _ => .pure _) c
    | identifier => exact mirrors_named hone (by rw [hk]; decide)
    | plusPlus | minusMinus => exact mirrors_steppedFirst hone _ (by rw [hk]; decide)
    | _ => exact hexpression c
  · rw [he, ht]
    exact hexpression c

end

/-! ## The knot -/

/-- What no statement begins with. -/
def Barred (k : TokenKind) : Prop := k = .eof ∨ k = .elseWord

theorem expression_of_barred (hc : Barred c.current.kind) (n : Nat) (p : BindingPower) :
    ∃ h c', expression n p c = .error h c' := by
  cases n with
  | zero => exact ⟨_, _, rfl⟩
  | succ n =>
    have hoperand : ∃ h c', operand (expression n) (statements n .closeCurly) c =
        .error h c' := by
      rw [operand, Parser.current_bind]
      rcases hc with hc | hc
      · rw [hc]
        exact ⟨_, _, rfl⟩
      · rw [hc]
        exact ⟨_, _, rfl⟩
    obtain ⟨h, c', hoperand⟩ := hoperand
    exact ⟨h, c', bind_of_error _ hoperand⟩

theorem statement_of_barred (hc : Barred c.current.kind) (n : Nat) :
    ∃ h c', statement n c = .error h c' := by
  cases n with
  | zero => exact ⟨_, _, rfl⟩
  | succ n =>
    obtain ⟨h, c', hexpression⟩ := expression_of_barred hc n .default
    have hany : anyStatement (expression n .default) (statement n) (statements n .closeCurly)
        (parameters n) c = .error h c' := by
      rw [anyStatement, Parser.current_bind]
      rcases hc with hc | hc
      · rw [hc]
        exact bind_of_error _ hexpression
      · rw [hc]
        exact bind_of_error _ hexpression
    exact ⟨h, c', bind_of_error _ hany⟩

theorem statements_of_barred {close : TokenKind} (hc : Barred c.current.kind)
    (hclose : c.current.kind ≠ close) (n : Nat) : ∃ h c', statements n close c = .error h c' := by
  cases n with
  | zero => exact ⟨_, _, rfl⟩
  | succ n =>
    obtain ⟨h, c', hstatement⟩ := statement_of_barred hc n
    have hsemicolon : c.current.kind ≠ .semicolon := by
      rcases hc with hc | hc
      · rw [hc]; decide
      · rw [hc]; decide
    rw [statements, Parser.current_bind, if_neg hclose, Parser.eat_bind, if_neg hsemicolon]
    exact ⟨h, c', bind_of_error _ hstatement⟩

theorem semicolons_of_ne (h : c.current.kind ≠ .semicolon) (n : Nat) :
    semicolons (n + 1) c = .ok () c := by
  rw [semicolons, Parser.eat_bind, if_neg h]
  rfl

theorem mirrors_semicolons :
    ∀ k l, Mirrors o (fun _ _ => True) (semicolons k) (semicolons l)
  | 0, _ => .starvedFirst
  | _ + 1, 0 => .starvedSecond
  | k + 1, l + 1 => fun c => by
    by_cases hc : c.current.kind = .eof
    · -- The first run stops here, while the second one may see semicolons.
      rw [MirrorsAt, semicolons_of_ne (by rw [hc]; decide)]
      rcases o.current c with h | ⟨-, -, hs⟩
      · rw [semicolons_of_ne (by rw [h, hc]; decide)]
        exact .near (.refl c)
      · rcases o.crosses c (l + 1) hc hs with ⟨d, hd⟩ | ⟨d, hd, hb⟩
        · rw [hd]
          exact .starvedSecond
        · rw [hd]
          exact .beyond (.refl c) hb trivial
    · rw [MirrorsAt, semicolons, semicolons, Parser.eat_bind, Parser.eat_bind,
        o.current_of_kind hc]
      split
      · rw [o.next c hc]
        exact (mirrors_semicolons k l c.next).later (.next hc)
      · exact .near (.refl c)

/-- No semicolon is next on either side. -/
theorem beyond_semicolons {α : Type} {q : α → α → Prop} {a b : α} (hab : q a b) (k l : Nat) :
    MirrorsBeyond o q (do semicolons k; return a) (do semicolons l; return b) := by
  intro c d hd
  obtain ⟨-, he, hs, -⟩ := o.ended hd
  cases k with
  | zero => exact .starvedFirst
  | succ k =>
    cases l with
    | zero => exact .starvedSecond
    | succ l =>
      rw [bind_of_ok _ (semicolons_of_ne (by rw [he]; decide) k),
        bind_of_ok _ (semicolons_of_ne hs l)]
      exact .beyond (.refl c) hd hab

theorem mirrors_parameters : ∀ k l, Mirrors o Unreached (parameters k) (parameters l)
  | 0, _ => .starvedFirst
  | _ + 1, 0 => .starvedSecond
  | k + 1, l + 1 => mirrors_separated mirrors_parameter (mirrors_parameters k l)

mutual

theorem mirrors_expression (o : Outlook) :
    ∀ k l p, Mirrors o Unreached (expression k p) (expression l p)
  | 0, _, _ => .starvedFirst
  | _ + 1, 0, _ => .starvedSecond
  | k + 1, l + 1, p => .bindNear (mirrors_operand (mirrors_expression o k l)
      (mirrors_statements o k l (fun _ => by decide))) fun left => mirrors_extended o k l p left

theorem mirrors_extended (o : Outlook) :
    ∀ k l p left, Mirrors o Unreached (extended k p left) (extended l p left)
  | 0, _, _, _ => .starvedFirst
  | _ + 1, 0, _, _ => .starvedSecond
  | k + 1, l + 1, p, _ => .kind_ite (p < ·.bindingPower) rfl
      (.bindNear (mirrors_continuation (mirrors_expression o k l) (mirrors_arguments o k l))
        fun wider => mirrors_extended o k l p wider)
      (.pure _)

theorem mirrors_arguments (o : Outlook) :
    ∀ k l, Mirrors o Unreached (arguments k) (arguments l)
  | 0, _ => .starvedFirst
  | _ + 1, 0 => .starvedSecond
  | k + 1, l + 1 => mirrors_separated (mirrors_expression o k l _) (mirrors_arguments o k l)

theorem mirrors_statement (o : Outlook) :
    ∀ k l, Mirrors o SameBare (statement k) (statement l)
  | 0, _ => .starvedFirst
  | _ + 1, 0 => .starvedSecond
  | k + 1, l + 1 => .bind (mirrors_anyStatement (mirrors_expression o k l _)
      (mirrors_statement o k l) (mirrors_statements o k l (fun _ => by decide))
      (mirrors_parameters k l))
    (fun _ => .bind (mirrors_semicolons k l) (fun _ => .pure _) fun _ _ _ => .pure rfl)
    fun _ _ hab => beyond_semicolons hab k l

/-- The list must not end at the end of the file if that may be seen as a semicolon. -/
theorem mirrors_statements (o : Outlook) : ∀ k l {close : TokenKind},
    (o.lenient → close ≠ .eof) →
    Mirrors o Unreached (statements k close) (statements l close)
  | 0, _, _, _ => .starvedFirst
  | _ + 1, 0, _, _ => .starvedSecond
  | k + 1, l + 1, close, hclose => fun c => by
    rcases o.current c with hc | ⟨hl, he, -⟩
    · rw [MirrorsAt, statements, statements, Parser.current_bind, Parser.current_bind, hc]
      split
      · exact .near (.refl c)
      · rw [Parser.eat_bind, Parser.eat_bind, hc]
        split
        · next hsemicolon =>
          have hne : c.current.kind ≠ .eof := by rw [hsemicolon]; decide
          rw [o.next c hne]
          exact (mirrors_statements o k l hclose c.next).later (.next hne)
        · refine Mirrors.bind (mirrors_statement o k l) (fun _ =>
            .bindNear (mirrors_statements o k l hclose) fun _ => .pure _)
            (fun _ _ _ c d hd => ?_) c
          obtain ⟨hl, he, -⟩ := o.ended hd
          obtain ⟨h, c', hfail⟩ := statements_of_barred (.inl he)
            (by rw [he]; exact (hclose hl).symm) k
          rw [bind_of_error _ hfail]
          exact .lenient hl
    · -- The second run may go on, while the first one misses what the list ends with.
      obtain ⟨h, c', hfail⟩ := statements_of_barred (.inl he)
        (by rw [he]; exact (hclose hl).symm) (k + 1)
      rw [MirrorsAt, hfail]
      exact .lenient hl

end

end Grammar

end ScriptLang
