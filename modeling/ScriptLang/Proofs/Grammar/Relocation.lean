import ScriptLang.Proofs.Grammar.Locality

/-!
# Every rule is local

An expression may end where the window does, since no operator extends it there. A rule that
reads up to a closing token, or looks at one that may follow, leaves a token in the window.
-/

namespace ScriptLang

/-- A literal or a name is what its token is, wherever this stands. -/
theorem Terminal.primary?_move {f : Position → Position} (t : Terminal) (s : Span) :
    t.primary? (s.move f) = (t.primary? s).map (Expr.move f) := by
  cases t with
  | symbol k => cases k <;> rfl
  | _ => rfl

/-- The end of the file is no literal and no name. -/
theorem Terminal.kind_of_primary? {t : Token} {s : Span} {e : Expr}
    (h : some e = t.terminal.primary? s) : t.kind ≠ .eof := by
  intro hk
  rw [Token.terminal_eq_symbol hk rfl] at h
  cases h

namespace Grammar

open ScriptLang.Parser

variable {w : Window} {s : Prop} {ex ex' : BindingPower → Parser Expr}
  {ss ss' : Parser (List Stmt)} {args args' : Parser (List Expr)} {left : Expr}

/-! ## Expressions -/

section

variable (hex : ∀ p, Carries w True 1 0 (Expr.move w.move) (ex p) (ex' p))
  (hss : Carries w True 0 1 (Stmt.moveList w.move) ss ss')
  (hargs : Carries w True 0 1 (Expr.moveList w.move) args args')

include hss in
theorem carries_block : Carries w s 2 0 (Block.move w.move) (block ss) (block ss') :=
  .bind (.expect nofun) (fun _ => .bind hss (fun _ => .bind (.expect nofun)
    (fun _ => .spanned fun _ => rfl) (Nat.zero_le _)) (Nat.le_refl _)) (Nat.zero_le _)

theorem carries_primary : Carries w s 1 0 (Expr.move w.move) primary primary := by
  intro c e c' h
  obtain ⟨he, rfl⟩ := primary_ok.mp h
  have hupto := Cursor.Upto.next_of_kind (Terminal.kind_of_primary? he)
  have hle := hupto.length
  refine ⟨hupto, fun d hd hlength => .inr ⟨_, d.next, ?_, rfl, hd.next (by omega)⟩⟩
  refine primary_ok.mpr ⟨?_, rfl⟩
  rw [hd.current (by omega)]
  exact (congrArg (Option.map (Expr.move w.move)) he).trans (Terminal.primary?_move _ _).symm

include hex in
theorem carries_prefixed (o : UnaryOperator) :
    Carries w s 1 0 (Expr.move w.move) (prefixed ex o) (prefixed ex' o) :=
  .advance_bind Nat.one_pos fun _ => .bind (hex .unary)
    (fun e => .pure (by rw [Expr.span_move]; rfl)) (Nat.zero_le _)

include hex in
theorem carries_grouped : Carries w s 1 0 (Expr.move w.move) (grouped ex) (grouped ex') :=
  .advance_bind Nat.one_pos fun _ => .bind (hex .default) (fun _ => .bind (.expect nofun)
    (fun _ => .spanned fun _ => rfl) (Nat.zero_le _)) (Nat.zero_le _)

include hss in
theorem carries_runBlock : Carries w s 1 0 (Expr.move w.move) (runBlock ss) (runBlock ss') :=
  .advance_bind Nat.one_pos fun _ => .bind (carries_block hss)
    (fun _ => .spanned fun _ => (Expr.move_run _ _).symm) (Nat.zero_le _)

include hex hss in
theorem carries_operand :
    Carries w s 1 0 (Expr.move w.move) (operand ex ss) (operand ex' ss') := by
  refine .current_bind Nat.one_pos fun t c _ => ?_
  obtain ⟨kind, text, span⟩ := t
  cases kind with
  | integer | float | string | trueWord | falseWord | identifier => exact carries_primary c
  | openParen => exact carries_grouped hex c
  | runWord => exact carries_runBlock hss c
  | not | dash | plus | plusPlus | minusMinus => exact carries_prefixed hex _ c
  | _ => exact Carries.unexpected c

theorem carries_stepped (step : Step) {c : Cursor} (hc : c.current.kind ≠ .eof) :
    CarriesAt w True 1 0 (Expr.move w.move) (stepped step left)
      (stepped step (left.move w.move)) c :=
  .advance_bind hc fun _ => .pure (by rw [Expr.span_move]; rfl)

include hargs in
theorem carries_called :
    Carries w True 1 0 (Expr.move w.move) (called args left) (called args' (left.move w.move)) := by
  cases left with
  | name =>
    exact .advance_bind Nat.one_pos fun _ => .bind hargs (fun _ => .bind (.expect nofun)
      (fun _ => .spanned fun _ => rfl) (Nat.zero_le _)) (Nat.le_refl _)
  | _ => exact .fails fun _ _ _ => fail_ok

include hex in
theorem carries_ranged :
    Carries w True 1 0 (Expr.move w.move) (ranged ex left) (ranged ex' (left.move w.move)) :=
  .advance_bind Nat.one_pos fun _ => .bind (hex .range)
    (fun _ => .pure (by rw [Expr.span_move, Expr.span_move]; rfl)) (Nat.zero_le _)

include hex in
theorem carries_rangeStep :
    Carries w True 1 0 (Expr.move w.move) (rangeStep ex left)
      (rangeStep ex' (left.move w.move)) := by
  refine .advance_bind Nat.one_pos fun t => ?_
  cases left with
  | range a b x d step s =>
    cases step with
    | none =>
      exact .bind (hex .range) (fun _ => .pure (by rw [Expr.span_move]; rfl)) (Nat.zero_le _)
    | some => exact .fail
  | _ => exact .fail

include hex in
theorem carries_combined (o : BinaryOperator) :
    Carries w True 1 0 (Expr.move w.move) (combined ex o left)
      (combined ex' o (left.move w.move)) :=
  .advance_bind Nat.one_pos fun _ => .bind (hex o.bindingPower)
    (fun _ => .pure (by rw [Expr.span_move, Expr.span_move]; rfl)) (Nat.zero_le _)

include hex hargs in
theorem carries_continuation :
    Carries w True 1 0 (Expr.move w.move) (continuation ex args left)
      (continuation ex' args' (left.move w.move)) := by
  refine .current_bind Nat.one_pos fun t c ht => ?_
  obtain ⟨kind, text, span⟩ := t
  cases kind with
  | openParen => exact carries_called hargs c
  | dotDot | untilWord | downToWord => exact carries_ranged hex c
  | stepWord => exact carries_rangeStep hex c
  | plusPlus | minusMinus => exact carries_stepped _ (by rw [ht]; exact nofun)
  | plus | dash | star | slash | percent | less | lessEquals | greater | greaterEquals | equals
  | notEquals | and | or => exact carries_combined hex _ c
  | _ => exact Carries.unexpected c

end

/-! ## Statements -/

section

variable {one one' : Parser Expr} {st st' : Parser Stmt} {ps ps' : Parser (List Parameter)}
  (hone : Carries w True 1 0 (Expr.move w.move) one one')
  (hst : Carries w True 1 1 (Stmt.move w.move) st st')
  (hss : Carries w True 0 1 (Stmt.moveList w.move) ss ss')
  (hps : Carries w True 0 1 id ps ps')

theorem carries_typeName : Carries w s 1 0 id typeName typeName := by
  refine .bind (.expectNamed nofun) (fun t => ?_) (Nat.zero_le _)
  dsimp only [Token.move]
  cases DeclaredType.ofName? t.text with
  | some => exact .pure rfl
  | none => exact .fail

theorem carries_annotation : Carries w True 0 1 id annotation annotation :=
  .eat_bind Nat.one_pos _ fun _ => .ite Iff.rfl
    (.bind carries_typeName (fun _ => .pure rfl) (Nat.zero_le _)) (.pure rfl)

include hone in
theorem carries_declaration {c : Cursor} (hc : c.current.kind ≠ .eof) :
    CarriesAt w True 1 1 (Stmt.move w.move) (declaration one) (declaration one') c := by
  refine .advance_bind hc fun t => .bind (.expectNamed nofun) (fun n => ?_)
    (Nat.zero_le _)
  refine .bind carries_annotation (fun type => .eat_bind Nat.one_pos _ fun _ => ?_) (Nat.le_refl _)
  refine .optional Iff.rfl hone (fun v => .ite ?_ (.fails fun _ _ _ h => by cases h)
    (.spanned fun _ => ?_)) (Nat.zero_le _)
  · cases v <;> rfl
  · rw [Stmt.move, Expr.moveOption_eq]
    rfl

include hone in
theorem carries_named {c : Cursor} (hc : c.current.kind ≠ .eof) :
    CarriesAt w True 1 1 (Stmt.move w.move) (named one) (named one') c := by
  refine .get_bind Nat.one_lt_two fun d hd => ?_
  dsimp only
  rw [hd]
  cases (c.peek 1).kind.assignOperator? with
  | some =>
    exact .advance_bind hc fun _ => .advance_bind Nat.one_pos fun _ => .bind hone
      (fun _ => .spanned fun _ => rfl) (Nat.zero_le _)
  | none =>
    cases (c.peek 1).kind.postfixStep? with
    | some =>
      exact .advance_bind hc fun _ => .advance_bind Nat.one_pos fun _ => .spanned fun _ => rfl
    | none => exact Carries.bind hone (fun _ => .pure rfl) (Nat.zero_le _) c

include hone in
theorem carries_steppedFirst (step : Step) {c : Cursor} (hc : c.current.kind ≠ .eof) :
    CarriesAt w True 1 1 (Stmt.move w.move) (steppedFirst one step) (steppedFirst one' step) c := by
  refine .get_bind Nat.one_lt_two fun d hd => ?_
  rw [hd]
  split
  · exact .advance_bind hc fun _ => .advance_bind Nat.one_pos fun _ => .spanned fun _ => rfl
  · exact Carries.bind hone (fun _ => .pure rfl) (Nat.zero_le _) c

include hone in
theorem carries_printing {c : Cursor} (hc : c.current.kind ≠ .eof) :
    CarriesAt w True 1 1 (Stmt.move w.move) (printing one) (printing one') c := by
  refine .advance_bind hc fun t => .bind (.expect nofun) (fun _ =>
    .current_bind Nat.one_pos fun _ c _ => Carries.optionalNot Iff.rfl hone (fun v => ?_)
      (Nat.zero_le _) c) (Nat.zero_le _)
  refine Carries.bind (.expect (nofun : TokenKind.closeParen ≠ .eof))
    (fun _ => .spanned fun _ => ?_) (Nat.zero_le _)
  rw [Stmt.move, Expr.moveOption_eq]
  rfl

include hone in
theorem carries_condition :
    Carries w True 0 1 (Expr.move w.move) (condition one) (condition one') :=
  .bind (.expect nofun) (fun _ => .bind hone (fun _ => .bind (.expect nofun) (fun _ => .pure rfl)
    (Nat.zero_le _)) (Nat.zero_le _)) (Nat.zero_le _)

include hone hst in
theorem carries_branching {c : Cursor} (hc : c.current.kind ≠ .eof) :
    CarriesAt w True 1 1 (Stmt.move w.move) (branching one st) (branching one' st') c :=
  .advance_bind hc fun _ => .bind (carries_condition hone) (fun _ => .bind hst (fun _ =>
    .eat_bind Nat.one_pos _ fun _ => .optional Iff.rfl hst (fun _ => .spanned fun _ => by
      rw [Stmt.move, Stmt.moveOption_eq]) (Nat.le_refl _)) (Nat.le_refl _)) (Nat.le_refl _)

include hone hst in
theorem carries_whileLoop {c : Cursor} (hc : c.current.kind ≠ .eof) :
    CarriesAt w True 1 1 (Stmt.move w.move) (whileLoop one st) (whileLoop one' st') c :=
  .advance_bind hc fun _ => .bind (carries_condition hone) (fun _ => .bind hst
    (fun _ => .spanned fun _ => rfl) (Nat.le_refl _)) (Nat.le_refl _)

include hone hst in
theorem carries_doWhile {c : Cursor} (hc : c.current.kind ≠ .eof) :
    CarriesAt w True 1 1 (Stmt.move w.move) (doWhile one st) (doWhile one' st') c :=
  .advance_bind hc fun _ => .bind hst (fun _ => .bind (.expect nofun) (fun _ =>
    .bind (carries_condition hone) (fun _ => .spanned fun _ => rfl) (Nat.le_refl _))
      (Nat.zero_le _)) (Nat.le_refl _)

include hone hst in
theorem carries_forLoop {c : Cursor} (hc : c.current.kind ≠ .eof) :
    CarriesAt w True 1 1 (Stmt.move w.move) (forLoop one st) (forLoop one' st') c :=
  .advance_bind hc fun _ => .bind (.expect nofun) (fun _ => .bind (.expect nofun)
    (fun _ => .bind (.expect nofun) (fun _ => .bind hone (fun range => .bind (.expect nofun)
      (fun _ => .ite (by rw [Expr.isRange_ungroup_move])
        (.bind hst (fun _ => .spanned fun _ => rfl) (Nat.le_refl _))
        (.fails fun _ _ _ h => by cases h)) (Nat.zero_le _)) (Nat.zero_le _)) (Nat.zero_le _))
    (Nat.zero_le _)) (Nat.zero_le _)

theorem carries_parameter : Carries w True 0 0 id parameter parameter :=
  .bind (.expect nofun) (fun _ => .bind (.expect nofun) (fun _ => .bind carries_typeName
    (fun _ => .pure rfl) (Nat.zero_le _)) (Nat.zero_le _)) (Nat.zero_le _)

theorem carries_separated {α : Type} {f : α → α} {item item' : Parser α}
    {others others' : Parser (List α)} (hitem : Carries w True 0 0 f item item')
    (hothers : Carries w True 0 1 (List.map f) others others') :
    Carries w True 0 1 (List.map f) (separated item others) (separated item' others') := by
  refine .current_bind Nat.one_pos fun _ c _ => Carries.ite Iff.rfl (.pure rfl) ?_ c
  refine .bind hitem (fun first => .eat_bind Nat.one_pos .comma fun comma => ?_) (Nat.zero_le _)
  cases comma with
  | true => exact .bind hothers (fun _ => .pure rfl) (Nat.le_refl _)
  | false => exact .pure rfl

include hps hss in
theorem carries_function {c : Cursor} (hc : c.current.kind ≠ .eof) :
    CarriesAt w True 1 1 (Stmt.move w.move) (function ps ss) (function ps' ss') c :=
  .advance_bind hc fun _ => .bind (.expect nofun) (fun _ => .bind (.expect nofun)
    (fun _ => .bind hps (fun _ => .bind (.expect nofun) (fun _ => .bind carries_annotation
      (fun _ => .bind (carries_block hss) (fun _ => .spanned fun _ => (Stmt.move_function ..).symm)
      (Nat.zero_le _)) (Nat.le_refl _)) (Nat.zero_le _)) (Nat.le_refl _)) (Nat.zero_le _))
    (Nat.zero_le _)

include hone in
theorem carries_returning {c : Cursor} (hc : c.current.kind ≠ .eof) :
    CarriesAt w True 1 1 (Stmt.move w.move) (returning one) (returning one') c :=
  .advance_bind hc fun _ => .current_bind Nat.one_pos fun _ c _ =>
    Carries.optional Iff.rfl hone (fun _ => .spanned fun _ => by
      rw [Stmt.move, Expr.moveOption_eq]) (Nat.zero_le _) c

include hone hst hss hps in
theorem carries_anyStatement : Carries w True 1 1 (Stmt.move w.move)
    (anyStatement one st ss ps) (anyStatement one' st' ss' ps') := by
  refine .current_bind Nat.zero_lt_two fun t c ht => ?_
  obtain ⟨kind, text, span⟩ := t
  have hc (h : kind ≠ .eof) : c.current.kind ≠ .eof := by rwa [ht]
  cases kind with
  | varWord | valWord => exact carries_declaration hone (hc nofun)
  | funWord => exact carries_function hss hps (hc nofun)
  | ifWord => exact carries_branching hone hst (hc nofun)
  | whileWord => exact carries_whileLoop hone hst (hc nofun)
  | doWord => exact carries_doWhile hone hst (hc nofun)
  | forWord => exact carries_forLoop hone hst (hc nofun)
  | returnWord => exact carries_returning hone (hc nofun)
  | breakWord | continueWord => exact .advance_bind (hc nofun) fun _ => .pure rfl
  | printWord | printlnWord => exact carries_printing hone (hc nofun)
  | openCurly =>
    exact Carries.bind (carries_block hss) (fun _ => .pure (Stmt.move_block _).symm)
      (Nat.zero_le _) c
  | identifier => exact carries_named hone (hc nofun)
  | plusPlus | minusMinus => exact carries_steppedFirst hone _ (hc nofun)
  | _ => exact Carries.bind hone (fun _ => .pure rfl) (Nat.zero_le _) c

end

/-! ## The knot -/

/-- On no fuel there is nothing to carry to a rule, and on some there is for some. -/
theorem carries_of_succ {α β : Type} {n m : Nat} {f : α → β} {x : Nat → Parser α}
    {y : Nat → Parser β} {k : Nat} (hy : y 0 = Parser.outOfFuel)
    (h : ∀ l, Carries w s n m f (x (k + 1)) (y (l + 1))) (l : Nat) :
    Carries w s n m f (x (k + 1)) (y l) := by
  cases l with
  | zero =>
    rw [hy]
    exact (h 0).outOfFuel
  | succ l => exact h l

theorem carries_semicolons : ∀ k l, Carries w True 0 1 id (semicolons k) (semicolons l)
  | 0, _ => .fails fun _ _ _ => outOfFuel_ok
  | k + 1, l => carries_of_succ (x := semicolons) rfl (fun l => .eat_bind Nat.one_pos _ fun _ =>
      .ite Iff.rfl (carries_semicolons k l) (.pure rfl)) l

theorem carries_parameters : ∀ k l, Carries w True 0 1 id (parameters k) (parameters l)
  | 0, _ => .fails fun _ _ _ => outOfFuel_ok
  | k + 1, l => carries_of_succ (x := parameters) rfl (fun l => by
      have h := carries_separated (carries_parameter (w := w))
        (by rw [List.map_id_fun]; exact carries_parameters k l)
      rwa [List.map_id_fun] at h) l

/-- The rules of the knot on `k` units of fuel, and on `l` at another place. -/
structure Carrying (w : Window) (k l : Nat) : Prop where
  expression : ∀ p, Carries w True 1 0 (Expr.move w.move) (expression k p) (expression l p)
  extended : ∀ p left, Carries w True 0 0 (Expr.move w.move) (extended k p left)
    (extended l p (left.move w.move))
  arguments : Carries w True 0 1 (Expr.moveList w.move) (arguments k) (arguments l)
  statement : Carries w True 1 1 (Stmt.move w.move) (statement k) (statement l)
  statements : ∀ close, Carries w True 0 1 (Stmt.moveList w.move) (statements k close)
    (statements l close)

section

variable {k l : Nat} (h : Carrying w k l)

include h

/-- Where an operator did not extend the expression, the end of the file does not either. -/
theorem Carrying.extended_succ (p : BindingPower) (left : Expr) :
    Carries w True 0 0 (Expr.move w.move) (Grammar.extended (k + 1) p left)
      (Grammar.extended (l + 1) p (left.move w.move)) := by
  intro c e c' he
  rcases extended_ok.mp he with ⟨hp, wider, c₁, hc, he⟩ | ⟨hp, rfl, rfl⟩
  · obtain ⟨hupto, hsees⟩ := Carries.bind (n := 1) (l := Grammar.extended l p)
      (carries_continuation h.expression h.arguments) (h.extended p) (Nat.zero_le _) c e c'
      (bind_ok.mpr ⟨wider, c₁, hc, he⟩)
    have hle := hupto.length
    refine ⟨hupto.weaken (Nat.zero_le 1), fun d hd hlength => ?_⟩
    have hkind : d.current.kind = c.current.kind := by
      rw [hd.current (by omega)]
      rfl
    rw [Grammar.extended, Parser.current_bind, if_pos (by rwa [hkind])]
    exact hsees d hd hlength
  · refine ⟨.refl c', fun d hd hlength => .inr ⟨_, d, ?_, rfl, hd⟩⟩
    have hnot : ¬ p < d.current.kind.bindingPower := by
      by_cases hlt : w.rest.length < c'.pending.length
      · rw [hd.current hlt]
        exact hp
      · rw [hd.kind_eof (by omega)]
        exact Nat.not_lt_zero _
    exact extended_ok.mpr (.inr ⟨hnot, rfl, rfl⟩)

theorem Carrying.statements_succ (close : TokenKind) :
    Carries w True 0 1 (Stmt.moveList w.move) (Grammar.statements (k + 1) close)
      (Grammar.statements (l + 1) close) := by
  refine .current_bind Nat.one_pos fun t c _ => Carries.ite Iff.rfl (.pure rfl) ?_ c
  refine .eat_bind Nat.one_pos .semicolon fun semicolon => ?_
  cases semicolon with
  | true => exact h.statements close
  | false =>
    exact .bind h.statement (fun _ => .bind (h.statements close) (fun _ => .pure rfl)
      (Nat.le_refl _)) (Nat.le_refl _)

end

theorem carrying (w : Window) (k l : Nat) : Carrying w k l := by
  -- The rules call one another on a unit of fuel less, whatever they read.
  induction k generalizing l with
  | zero =>
    constructor
    all_goals intros; exact .fails fun _ _ _ => outOfFuel_ok
  | succ k ih =>
    constructor
    · refine fun p => carries_of_succ (x := (expression · p)) (y := (expression · p)) rfl
        (fun l => ?_) l
      exact .bind (carries_operand (ih l).expression ((ih l).statements _)) ((ih l).extended p)
        (Nat.zero_le _)
    · exact fun p left => carries_of_succ (x := (extended · p left))
        (y := (extended · p (left.move w.move))) rfl (fun l => (ih l).extended_succ p left) l
    · refine carries_of_succ (x := arguments) (y := arguments) rfl (fun l => ?_) l
      have hmap : Expr.moveList w.move = List.map (Expr.move w.move) := funext Expr.moveList_eq
      rw [hmap]
      exact carries_separated (((ih l).expression _).consuming (Nat.zero_le 1))
        (hmap ▸ (ih l).arguments)
    · refine carries_of_succ (x := statement) (y := statement) rfl (fun l => ?_) l
      exact .bind (carries_anyStatement ((ih l).expression _) (ih l).statement
        ((ih l).statements _) (carries_parameters k l)) (fun _ => .bind (carries_semicolons k l)
          (fun _ => .pure rfl) (Nat.le_refl _)) (Nat.le_refl _)
    · exact fun close => carries_of_succ (x := (statements · close)) (y := (statements · close))
        rfl (fun l => (ih l).statements_succ close) l

end Grammar

end ScriptLang
