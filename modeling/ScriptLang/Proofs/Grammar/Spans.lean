import Mathlib.Data.List.GetD
import ScriptLang.Proofs.Correspondence
import ScriptLang.Proofs.Grammar.Rule
import ScriptLang.Proofs.Tree.Bare

/-!
# Rules read spellings

What a rule reads of a token is its kind and its text. On tokens spelled alike, a rule makes
trees that are equal up to spans, or fails on both sides for the same reason. No rule looks
at a span to decide how to go on.
-/

namespace ScriptLang

/-- What is written in a token, wherever it stands. -/
def Token.spelling (t : Token) : TokenKind × String := (t.kind, t.text)

/-- The pending tokens are spelled alike. -/
structure Cursor.Alike (c d : Cursor) : Prop where
  pending : c.pending.map Token.spelling = d.pending.map Token.spelling
  endText : c.endText = d.endText

namespace Cursor.Alike

variable {c d : Cursor}

theorem peek (h : c.Alike d) (n : Nat) : (c.peek n).spelling = (d.peek n).spelling := by
  have hn := congrArg (·.getD n (TokenKind.eof, c.endText)) h.pending
  have hat : ∀ e : Cursor, e.endText = c.endText →
      (e.pending.map Token.spelling).getD n (.eof, c.endText) = (e.peek n).spelling := by
    intro e he
    rw [← he]
    exact List.getD_map _ ⟨.eof, e.endText, e.endSpan⟩ Token.spelling
  rwa [hat c rfl, hat d h.endText.symm] at hn

theorem kind (h : c.Alike d) (n : Nat) : (c.peek n).kind = (d.peek n).kind :=
  congrArg Prod.fst (h.peek n)

theorem next (h : c.Alike d) : c.next.Alike d.next := by
  obtain ⟨_, pending, _, _⟩ := c
  obtain ⟨_, pending', _, _⟩ := d
  obtain ⟨hpending, htext⟩ := h
  cases pending with
  | nil =>
    cases pending' with
    | nil => exact ⟨rfl, htext⟩
    | cons => cases hpending
  | cons =>
    cases pending' with
    | nil => cases hpending
    | cons => exact ⟨(List.cons.inj hpending).2, htext⟩

theorem fuel (h : c.Alike d) : c.fuel = d.fuel := by
  have hlength := congrArg List.length h.pending
  rw [List.length_map, List.length_map] at hlength
  rw [Cursor.fuel, Cursor.fuel, hlength]

end Cursor.Alike

theorem Cursor.alike_ofTokens {tokens tokens' : List Token}
    (h : tokens.map Token.spelling = tokens'.map Token.spelling) (file file' : String) :
    (Cursor.ofTokens tokens file).Alike (Cursor.ofTokens tokens' file') := by
  have hlast := congrArg List.getLast? h
  have hdrop := congrArg List.dropLast h
  rw [List.getLast?_map, List.getLast?_map] at hlast
  rw [← List.map_dropLast, ← List.map_dropLast] at hdrop
  unfold Cursor.ofTokens
  cases ht : tokens.getLast? with
  | none =>
    cases ht' : tokens'.getLast? with
    | none => exact ⟨rfl, rfl⟩
    | some t' => rw [ht, ht'] at hlast; cases hlast
  | some t =>
    cases ht' : tokens'.getLast? with
    | none => rw [ht, ht'] at hlast; cases hlast
    | some t' =>
      rw [ht, ht'] at hlast
      have hspelling : t.spelling = t'.spelling := Option.some.inj hlast
      have hkind : t.kind = t'.kind := congrArg Prod.fst hspelling
      dsimp only
      rw [hkind]
      split
      · exact ⟨hdrop, congrArg Prod.snd hspelling⟩
      · exact ⟨h, rfl⟩

theorem Stmt.bareOption_eq (s : Option Stmt) : Stmt.bareOption s = s.map Stmt.bare := by
  cases s <;> rfl

namespace Expr

theorem bareOption_eq (e : Option Expr) : bareOption e = e.map bare := by
  cases e <;> rfl

theorem name?_bare (e : Expr) : e.bare.name? = e.name? := by
  cases e with
  | run b => cases b; rfl
  | _ => rfl

theorem eq_name_of_name? {e : Expr} {n : String} (h : e.name? = some n) : ∃ s, e = .name n s := by
  cases e with
  | name m s => cases h; exact ⟨s, rfl⟩
  | _ => cases h

theorem isRange_bare (e : Expr) : e.bare.isRange = e.isRange := by
  cases e with
  | run b => cases b; rfl
  | _ => rfl

end Expr

namespace Parser

variable {α β γ δ : Type}

/-- On cursors that stand alike, both rules give results with the same `f`, or fail for the
same reason. -/
def Shows (f : α → γ) (x y : Parser α) : Prop :=
  Parallel Cursor.Alike (fun h k _ _ => h.cause? = k.cause?) (fun a b => f a = f b) x y

/-- Results that are not compared. -/
abbrev unseen {α : Type} : α → Unit := fun _ => ()

namespace Shows

variable {f : α → γ} {g : β → δ} {x y : Parser α}

theorem pure {a b : α} (h : f a = f b) : Shows f (Pure.pure a) (Pure.pure b) := Parallel.pure h

theorem bind {k l : α → Parser β} (hx : Shows f x y)
    (hk : ∀ a b, f a = f b → Shows g (k a) (l b)) : Shows g (x >>= k) (y >>= l) :=
  Parallel.bind hx hk

theorem map {k l : α → β} (hx : Shows f x y) (h : ∀ a b, f a = f b → g (k a) = g (l b)) :
    Shows g (k <$> x) (l <$> y) := Parallel.map hx h

theorem ite {p q : Prop} [Decidable p] [Decidable q] (hpq : p ↔ q) {x' y' : Parser α}
    (ht : Shows f x y) (hf : Shows f x' y') :
    Shows f (if p then x else x') (if q then y else y') :=
  Parallel.ite hpq (fun _ => ht) fun _ => hf

theorem some (hx : Shows f x y) :
    Shows (Option.map f) (Option.some <$> x) (Option.some <$> y) :=
  hx.map fun _ _ h => by rw [Option.map_some, Option.map_some, h]

/-- A part that may be missing. -/
theorem optional {p q : Prop} [Decidable p] [Decidable q] (hpq : p ↔ q) (hx : Shows f x y)
    {k l : Option α → Parser β}
    (hk : ∀ a b, Option.map f a = Option.map f b → Shows g (k a) (l b)) :
    Shows g (if p then Option.some <$> x >>= k else Pure.pure none >>= k)
      (if q then Option.some <$> y >>= l else Pure.pure none >>= l) :=
  ite hpq (hx.some.bind hk) (hk _ _ rfl)

theorem optionalNot {p q : Prop} [Decidable p] [Decidable q] (hpq : p ↔ q) (hx : Shows f x y)
    {k l : Option α → Parser β}
    (hk : ∀ a b, Option.map f a = Option.map f b → Shows g (k a) (l b)) :
    Shows g (if p then Pure.pure none >>= k else Option.some <$> x >>= k)
      (if q then Pure.pure none >>= l else Option.some <$> y >>= l) :=
  ite hpq (hk _ _ rfl) (hx.some.bind hk)

theorem fail {cause : Cause} {p p' : Position} :
    Shows f (Parser.fail cause p) (Parser.fail cause p') := Corresponds.throw fun _ _ _ => rfl

theorem outOfFuel : Shows f (Parser.outOfFuel : Parser α) Parser.outOfFuel :=
  Corresponds.throw fun _ _ _ => rfl

theorem spanFrom (p p' : Position) : Shows unseen (Parser.spanFrom p) (Parser.spanFrom p') :=
  fun _ _ h => .ok ⟨rfl, h⟩

theorem position : Shows unseen Parser.position Parser.position := fun _ _ h => .ok ⟨rfl, h⟩

theorem advance : Shows Token.spelling Parser.advance Parser.advance :=
  fun _ _ h => .ok ⟨h.peek 0, h.next⟩

theorem current : Shows Token.spelling Parser.current Parser.current :=
  fun _ _ h => .ok ⟨h.peek 0, h⟩

theorem unexpected : Shows f (Parser.unexpected : Parser α) Parser.unexpected :=
  current.bind fun t u htu => by
    rw [show t.text = u.text from congrArg Prod.snd htu]
    exact fail

theorem eat (kind : TokenKind) : Shows id (Parser.eat kind) (Parser.eat kind) :=
  current.bind fun t u htu => by
    rw [show t.kind = u.kind from congrArg Prod.fst htu]
    exact ite Iff.rfl (advance.bind fun _ _ _ => .pure rfl) (.pure rfl)

theorem expectNamed (kind : TokenKind) (e : String) :
    Shows Token.spelling (Parser.expectNamed kind e) (Parser.expectNamed kind e) :=
  current.bind fun t u htu => by
    rw [show t.kind = u.kind from congrArg Prod.fst htu,
      show t.text = u.text from congrArg Prod.snd htu]
    exact ite Iff.rfl advance fail

theorem expect (kind : TokenKind) :
    Shows Token.spelling (Parser.expect kind) (Parser.expect kind) := expectNamed kind _

end Shows

end Parser

namespace Grammar

open ScriptLang.Parser

/-- Only a name can be called. -/
theorem called_of_name?_eq_none {args : Parser (List Expr)} {left : Expr} (h : left.name? = none) :
    called args left = (do
      fail (.unexpectedTokenDetailed "(" "only named functions can be called") (← position)) := by
  cases left with
  | name => cases h
  | _ => rfl

variable {ex ex' : BindingPower → Parser Expr} {ss ss' : Parser (List Stmt)}
  {args args' : Parser (List Expr)} {left left' : Expr}

/-! ## Expressions -/

section

variable (hex : ∀ p, Shows Expr.bare (ex p) (ex' p)) (hss : Shows Stmt.bareList ss ss')
  (hargs : Shows Expr.bareList args args') (hleft : left.bare = left'.bare)

include hss in
theorem shows_block :
    Shows (fun b : Block => Stmt.bareList b.body) (block ss) (block ss') :=
  (Shows.expect _).bind fun _ _ _ => hss.bind fun _ _ hbody => (Shows.expect _).bind fun _ _ _ =>
    (Shows.spanFrom _ _).bind fun _ _ _ => .pure hbody

theorem shows_numberOr {α : Type} (t u : Token) (htu : t.text = u.text) (value : Option α) :
    Shows id (numberOr t value) (numberOr u value) := by
  unfold numberOr
  cases value with
  | some => exact .pure rfl
  | none =>
    rw [htu]
    exact .fail

theorem shows_primary : Shows Expr.bare primary primary := by
  refine Shows.advance.bind fun t u htu => ?_
  obtain ⟨kind, text, span⟩ := t
  obtain ⟨kind', text', span'⟩ := u
  cases htu
  cases kind with
  | integer =>
    refine (shows_numberOr ⟨_, text, span⟩ ⟨_, text, span'⟩ rfl _).bind fun a b (h : a = b) => ?_
    exact .pure (h ▸ rfl)
  | float =>
    refine (shows_numberOr ⟨_, text, span⟩ ⟨_, text, span'⟩ rfl _).bind fun a b (h : a = b) => ?_
    exact .pure (h ▸ rfl)
  | string | trueWord | falseWord | identifier => exact .pure rfl
  | _ => exact .fail

include hex in
theorem shows_prefixed (o : UnaryOperator) : Shows Expr.bare (prefixed ex o) (prefixed ex' o) :=
  Shows.advance.bind fun _ _ _ => (hex .unary).bind fun _ _ he =>
    .pure (congrArg (Expr.unary o · default) he)

include hex in
theorem shows_grouped : Shows Expr.bare (grouped ex) (grouped ex') :=
  Shows.advance.bind fun _ _ _ => (hex .default).bind fun _ _ he => (Shows.expect _).bind
    fun _ _ _ => (Shows.spanFrom _ _).bind fun _ _ _ => .pure (congrArg (Expr.group · default) he)

include hss in
theorem shows_runBlock : Shows Expr.bare (runBlock ss) (runBlock ss') :=
  Shows.advance.bind fun _ _ _ => (shows_block hss).bind fun ⟨_, _⟩ ⟨_, _⟩ hb =>
    (Shows.spanFrom _ _).bind fun _ _ _ => .pure (congrArg (Expr.run ⟨·, default⟩ default) hb)

include hex hss in
theorem shows_operand : Shows Expr.bare (operand ex ss) (operand ex' ss') := by
  refine Shows.current.bind fun t u htu => ?_
  obtain ⟨kind, text, span⟩ := t
  obtain ⟨kind', text', span'⟩ := u
  cases htu
  cases kind with
  | integer | float | string | trueWord | falseWord | identifier => exact shows_primary
  | openParen => exact shows_grouped hex
  | runWord => exact shows_runBlock hss
  | not | dash | plus | plusPlus | minusMinus => exact shows_prefixed hex _
  | _ => exact .unexpected

include hleft in
theorem shows_stepped (s : Step) : Shows Expr.bare (stepped s left) (stepped s left') :=
  Shows.advance.bind fun _ _ _ => .pure (congrArg (Expr.unary (.step s) · default) hleft)

include hargs hleft in
theorem shows_called : Shows Expr.bare (called args left) (called args' left') := by
  have hname : left.name? = left'.name? := by rw [← left.name?_bare, hleft, left'.name?_bare]
  cases hl : left.name? with
  | none =>
    rw [called_of_name?_eq_none hl, called_of_name?_eq_none (hname ▸ hl)]
    exact Shows.position.bind fun _ _ _ => .fail
  | some f =>
    obtain ⟨s, rfl⟩ := Expr.eq_name_of_name? hl
    obtain ⟨s', rfl⟩ := Expr.eq_name_of_name? (hname ▸ hl)
    exact Shows.advance.bind fun _ _ _ => hargs.bind fun _ _ hvalues =>
      (Shows.expect _).bind fun _ _ _ => (Shows.spanFrom _ _).bind fun _ _ _ =>
        .pure (congrArg (Expr.call f · default) hvalues)

include hex hleft in
theorem shows_ranged : Shows Expr.bare (ranged ex left) (ranged ex' left') := by
  refine Shows.advance.bind fun t u htu => (hex .range).bind fun a b hab => .pure ?_
  rw [Expr.bare, Expr.bare, hleft, hab, show t.kind = u.kind from congrArg Prod.fst htu]

include hex hleft in
theorem shows_rangeStep : Shows Expr.bare (rangeStep ex left) (rangeStep ex' left') := by
  have hrange : left.isRange = left'.isRange := by
    rw [← left.isRange_bare, hleft, left'.isRange_bare]
  refine Shows.advance.bind fun t u htu => ?_
  rw [show t.text = u.text from congrArg Prod.snd htu]
  cases left with
  | range a b x d step s =>
    cases left' with
    | range a' b' x' d' step' s' =>
      injection hleft with ha hb hx hd hstep
      subst hx hd
      cases step with
      | none =>
        cases step' with
        | none =>
          refine (hex .range).bind fun _ _ hc => .pure ?_
          rw [Expr.bare, Expr.bare, ha, hb, Expr.bareOption, Expr.bareOption, hc]
        | some => cases hstep
      | some =>
        cases step' with
        | none => cases hstep
        | some => exact .fail
    | _ => cases hrange
  | _ =>
    cases left' with
    | range => cases hrange
    | _ => exact .fail

include hex hleft in
theorem shows_combined (o : BinaryOperator) :
    Shows Expr.bare (combined ex o left) (combined ex' o left') :=
  Shows.advance.bind fun _ _ _ => (hex o.bindingPower).bind fun _ _ hab => .pure (by
    rw [Expr.bare, Expr.bare, hleft, hab])

include hex hargs hleft in
theorem shows_continuation :
    Shows Expr.bare (continuation ex args left) (continuation ex' args' left') := by
  refine Shows.current.bind fun t u htu => ?_
  obtain ⟨kind, text, span⟩ := t
  obtain ⟨kind', text', span'⟩ := u
  cases htu
  cases kind with
  | openParen => exact shows_called hargs hleft
  | dotDot | untilWord | downToWord => exact shows_ranged hex hleft
  | stepWord => exact shows_rangeStep hex hleft
  | plusPlus | minusMinus => exact shows_stepped hleft _
  | plus | dash | star | slash | percent | less | lessEquals | greater | greaterEquals | equals
  | notEquals | and | or => exact shows_combined hex hleft _
  | _ => exact .unexpected

end

/-! ## Statements -/

section

variable {one one' : Parser Expr} {st st' : Parser Stmt} {ps ps' : Parser (List Parameter)}

theorem shows_typeName : Shows id typeName typeName := by
  refine (Shows.expectNamed _ _).bind fun t u htu => ?_
  rw [show t.text = u.text from congrArg Prod.snd htu]
  cases DeclaredType.ofName? u.text with
  | some => exact .pure rfl
  | none => exact .fail

theorem shows_annotation : Shows id annotation annotation := by
  refine (Shows.eat _).bind fun a b (hab : a = b) => ?_
  subst hab
  exact .ite Iff.rfl (shows_typeName.bind fun _ _ h => .pure (congrArg some h)) (.pure rfl)

variable (hone : Shows Expr.bare one one') (hst : Shows Stmt.bare st st')
  (hss : Shows Stmt.bareList ss ss') (hps : Shows id ps ps')

include hone in
theorem shows_declaration : Shows Stmt.bare (declaration one) (declaration one') := by
  refine Shows.advance.bind fun t u htu => (Shows.expectNamed _ _).bind fun n m hnm =>
    shows_annotation.bind fun type type' (ht : type = type') => (Shows.eat _).bind
      fun a b (hab : a = b) => ?_
  subst ht hab
  refine Shows.optional Iff.rfl hone fun v w hvw => ?_
  rw [← Expr.bareOption_eq, ← Expr.bareOption_eq] at hvw
  have hend : Shows Stmt.bare
      (do return .declare n.text (t.kind == .valWord) type v (← Parser.spanFrom t.span.start))
      (do return .declare m.text (u.kind == .valWord) type w (← Parser.spanFrom u.span.start)) :=
    (Shows.spanFrom _ _).bind fun _ _ _ => .pure (by
      rw [Stmt.bare, Stmt.bare, hvw, show n.text = m.text from congrArg Prod.snd hnm,
        show t.kind = u.kind from congrArg Prod.fst htu])
  have hnone : v.isNone = w.isNone := by
    rw [← Expr.bareOption_isNone v, hvw, Expr.bareOption_isNone]
  dsimp only
  rw [hnone]
  exact .ite Iff.rfl (Shows.fail (f := id).bind fun _ _ _ => hend) hend

include hone in
theorem shows_named : Shows Stmt.bare (named one) (named one') := by
  refine Parallel.get_bind fun c d hcd => ?_
  rw [hcd.kind 1]
  dsimp only
  cases (d.peek 1).kind.assignOperator? with
  | some o =>
    refine Shows.advance.bind fun t u htu => Shows.advance.bind fun _ _ _ => hone.bind
      fun v w hvw => (Shows.spanFrom _ _).bind fun _ _ _ => .pure ?_
    rw [Stmt.bare, Stmt.bare, show t.text = u.text from congrArg Prod.snd htu, Expr.bareOption,
      Expr.bareOption, hvw]
  | none =>
    cases (d.peek 1).kind.postfixStep? with
    | some step =>
      refine Shows.advance.bind fun t u htu => Shows.advance.bind fun _ _ _ =>
        (Shows.spanFrom _ _).bind fun _ _ _ => .pure ?_
      rw [Stmt.bare, Stmt.bare, show t.text = u.text from congrArg Prod.snd htu]
    | none => exact hone.bind fun _ _ h => .pure (congrArg Stmt.expression h)

include hone in
theorem shows_steppedFirst (step : Step) :
    Shows Stmt.bare (steppedFirst one step) (steppedFirst one' step) := by
  refine Parallel.get_bind fun c d hcd => ?_
  rw [hcd.kind 1]
  refine Shows.ite Iff.rfl ?_ (hone.bind fun _ _ h => .pure (congrArg Stmt.expression h))
  refine Shows.advance.bind fun _ _ _ => Shows.advance.bind fun t u htu =>
    (Shows.spanFrom _ _).bind fun _ _ _ => .pure ?_
  rw [Stmt.bare, Stmt.bare, show t.text = u.text from congrArg Prod.snd htu]

include hone in
theorem shows_printing : Shows Stmt.bare (printing one) (printing one') := by
  refine Shows.advance.bind fun t u htu => (Shows.expect _).bind fun _ _ _ =>
    Shows.current.bind fun r s hrs => ?_
  rw [show r.kind = s.kind from congrArg Prod.fst hrs]
  refine Shows.optionalNot Iff.rfl hone fun v w hvw => (Shows.expect _).bind fun _ _ _ =>
    (Shows.spanFrom _ _).bind fun _ _ _ => .pure ?_
  rw [← Expr.bareOption_eq, ← Expr.bareOption_eq] at hvw
  rw [Stmt.bare, Stmt.bare, hvw, show t.kind = u.kind from congrArg Prod.fst htu]

include hone in
theorem shows_condition : Shows Expr.bare (condition one) (condition one') :=
  (Shows.expect _).bind fun _ _ _ => hone.bind fun _ _ h => (Shows.expect _).bind fun _ _ _ =>
    .pure h

include hone hst in
theorem shows_branching : Shows Stmt.bare (branching one st) (branching one' st') := by
  refine Shows.advance.bind fun _ _ _ => (shows_condition hone).bind fun _ _ hc => hst.bind
    fun _ _ ha => (Shows.eat _).bind fun a b (hab : a = b) => ?_
  subst hab
  refine Shows.optional Iff.rfl hst fun v w hvw => (Shows.spanFrom _ _).bind fun _ _ _ => .pure ?_
  rw [← Stmt.bareOption_eq, ← Stmt.bareOption_eq] at hvw
  rw [Stmt.bare, Stmt.bare, hc, ha, hvw]

include hone hst in
theorem shows_whileLoop : Shows Stmt.bare (whileLoop one st) (whileLoop one' st') :=
  Shows.advance.bind fun _ _ _ => (shows_condition hone).bind fun _ _ hc => hst.bind
    fun _ _ hs => (Shows.spanFrom _ _).bind fun _ _ _ => .pure (by
      rw [Stmt.bare, Stmt.bare, hc, hs])

include hone hst in
theorem shows_doWhile : Shows Stmt.bare (doWhile one st) (doWhile one' st') :=
  Shows.advance.bind fun _ _ _ => hst.bind fun _ _ hs => (Shows.expect _).bind fun _ _ _ =>
    (shows_condition hone).bind fun _ _ hc => (Shows.spanFrom _ _).bind fun _ _ _ => .pure (by
      rw [Stmt.bare, Stmt.bare, hc, hs])

include hone hst in
theorem shows_forLoop : Shows Stmt.bare (forLoop one st) (forLoop one' st') := by
  refine Shows.advance.bind fun _ _ _ => (Shows.expect _).bind fun _ _ _ =>
    (Shows.expect _).bind fun n m hnm => (Shows.expect _).bind fun _ _ _ => hone.bind
      fun r r' hr => (Shows.expect _).bind fun _ _ _ => ?_
  have hend {p p' : Position} : Shows Stmt.bare
      (do
        let body ← st
        return .forLoop n.text r body (← Parser.spanFrom p))
      (do
        let body ← st'
        return .forLoop m.text r' body (← Parser.spanFrom p')) :=
    hst.bind fun _ _ hs => (Shows.spanFrom _ _).bind fun _ _ _ => .pure (by
      rw [Stmt.bare, Stmt.bare, hr, hs, show n.text = m.text from congrArg Prod.snd hnm])
  have hrange : r.ungroup.isRange = r'.ungroup.isRange := by
    rw [← r.isRange_ungroup_bare, hr, r'.isRange_ungroup_bare]
  rw [hrange]
  exact .ite Iff.rfl hend (Shows.fail (f := id).bind fun _ _ _ => hend)

theorem shows_parameter : Shows id parameter parameter :=
  (Shows.expect _).bind fun n m hnm => (Shows.expect _).bind fun _ _ _ => shows_typeName.bind
    fun a b (ht : a = b) => .pure (by
      subst ht
      rw [show n.text = m.text from congrArg Prod.snd hnm])

/-- Items are compared one by one. -/
theorem shows_separated {α γ : Type} {f : α → γ} {item item' : Parser α}
    {others others' : Parser (List α)} (hitem : Shows f item item')
    (hothers : Shows (List.map f) others others') :
    Shows (List.map f) (separated item others) (separated item' others') := by
  refine Shows.current.bind fun t u htu => ?_
  rw [show t.kind = u.kind from congrArg Prod.fst htu]
  refine .ite Iff.rfl (.pure rfl) (hitem.bind fun x y hxy => (Shows.eat _).bind
    fun a b (hab : a = b) => ?_)
  subst hab
  refine .ite Iff.rfl (hothers.bind fun xs ys hxys => .pure ?_) (.pure ?_)
  · rw [List.map_cons, List.map_cons, hxy, hxys]
  · rw [List.map_cons, List.map_cons, hxy]

include hps hss in
theorem shows_function : Shows Stmt.bare (function ps ss) (function ps' ss') := by
  refine Shows.advance.bind fun _ _ _ => (Shows.expect _).bind fun n m hnm =>
    (Shows.expect _).bind fun _ _ _ => hps.bind fun as bs (habs : as = bs) =>
      (Shows.expect _).bind fun _ _ _ => shows_annotation.bind fun r r' (hr : r = r') =>
        (shows_block hss).bind fun ⟨_, _⟩ ⟨_, _⟩ hb => (Shows.spanFrom _ _).bind fun _ _ _ =>
          .pure ?_
  subst habs hr
  rw [Stmt.bare, Stmt.bare, show n.text = m.text from congrArg Prod.snd hnm, hb]

include hone in
theorem shows_returning : Shows Stmt.bare (returning one) (returning one') := by
  refine Shows.advance.bind fun _ _ _ => Shows.current.bind fun t u htu => ?_
  rw [show t.kind = u.kind from congrArg Prod.fst htu]
  refine Shows.optional Iff.rfl hone fun v w hvw => (Shows.spanFrom _ _).bind fun _ _ _ =>
    .pure ?_
  rw [← Expr.bareOption_eq, ← Expr.bareOption_eq] at hvw
  rw [Stmt.bare, Stmt.bare, hvw]

include hone hst hss hps in
theorem shows_anyStatement :
    Shows Stmt.bare (anyStatement one st ss ps) (anyStatement one' st' ss' ps') := by
  refine Shows.current.bind fun t u htu => ?_
  rw [show t.kind = u.kind from congrArg Prod.fst htu]
  cases u.kind with
  | varWord | valWord => exact shows_declaration hone
  | funWord => exact shows_function hss hps
  | ifWord => exact shows_branching hone hst
  | whileWord => exact shows_whileLoop hone hst
  | doWord => exact shows_doWhile hone hst
  | forWord => exact shows_forLoop hone hst
  | returnWord => exact shows_returning hone
  | breakWord | continueWord => exact Shows.advance.bind fun _ _ _ => .pure rfl
  | printWord | printlnWord => exact shows_printing hone
  | openCurly =>
    exact (shows_block hss).bind fun ⟨_, _⟩ ⟨_, _⟩ hb =>
      .pure (congrArg (fun body => Stmt.block ⟨body, default⟩) hb)
  | identifier => exact shows_named hone
  | plusPlus | minusMinus => exact shows_steppedFirst hone _
  | _ => exact hone.bind fun _ _ h => .pure (congrArg Stmt.expression h)

end

/-! ## The knot -/

theorem shows_semicolons : ∀ n, Shows id (semicolons n) (semicolons n)
  | 0 => .outOfFuel
  | n + 1 => (Shows.eat _).bind fun a b (hab : a = b) => by
    subst hab
    exact .ite Iff.rfl (shows_semicolons n) (.pure rfl)

theorem shows_parameters : ∀ n, Shows id (parameters n) (parameters n)
  | 0 => .outOfFuel
  | n + 1 => by
    have hrest : Shows (List.map id) (parameters n) (parameters n) := by
      rw [List.map_id_fun]
      exact shows_parameters n
    have h := shows_separated shows_parameter hrest
    rwa [List.map_id_fun] at h

mutual

theorem shows_expression : ∀ n p, Shows Expr.bare (expression n p) (expression n p)
  | 0, _ => .outOfFuel
  | n + 1, p => (shows_operand (shows_expression n) (shows_statements n _)).bind
    fun _ _ h => shows_extended n p h

theorem shows_extended : ∀ n p {left left' : Expr}, left.bare = left'.bare →
    Shows Expr.bare (extended n p left) (extended n p left')
  | 0, _, _, _, _ => .outOfFuel
  | n + 1, p, _, _, h => Shows.current.bind fun t u htu => by
    rw [show t.kind = u.kind from congrArg Prod.fst htu]
    exact .ite Iff.rfl ((shows_continuation (shows_expression n) (shows_arguments n) h).bind
      fun _ _ h => shows_extended n p h) (.pure h)

theorem shows_arguments : ∀ n, Shows Expr.bareList (arguments n) (arguments n)
  | 0 => .outOfFuel
  | n + 1 => by
    have hbare : Expr.bareList = List.map Expr.bare := funext Expr.bareList_eq
    have hrest := shows_arguments n
    rw [hbare] at hrest ⊢
    exact shows_separated (shows_expression n _) hrest

theorem shows_statement : ∀ n, Shows Stmt.bare (statement n) (statement n)
  | 0 => .outOfFuel
  | n + 1 => (shows_anyStatement (shows_expression n _) (shows_statement n) (shows_statements n _)
      (shows_parameters n)).bind fun _ _ h => (shows_semicolons n).bind fun _ _ _ => .pure h

theorem shows_statements : ∀ n close, Shows Stmt.bareList (statements n close) (statements n close)
  | 0, _ => .outOfFuel
  | n + 1, close => Shows.current.bind fun t u htu => by
    rw [show t.kind = u.kind from congrArg Prod.fst htu]
    refine .ite Iff.rfl (.pure rfl) ((Shows.eat _).bind fun a b (hab : a = b) => ?_)
    subst hab
    refine .ite Iff.rfl (shows_statements n close) ((shows_statement n).bind fun _ _ hs =>
      (shows_statements n close).bind fun _ _ hrest => .pure ?_)
    rw [Stmt.bareList, Stmt.bareList, hs, hrest]

end

end Grammar

/-- Tokens spelled alike make trees that are equal up to spans, or none on both sides and for
the same reason. -/
theorem Program.ofTokens_shows {tokens tokens' : List Token}
    (h : tokens.map Token.spelling = tokens'.map Token.spelling) (file file' : String) :
    match ofTokens tokens file, ofTokens tokens' file' with
    | .ok p, .ok q => p.bare = q.bare
    | .error halt, .error halt' => halt.cause? = halt'.cause?
    | _, _ => False := by
  have hcursor := Cursor.alike_ofTokens h file file'
  have hrun := Grammar.shows_statements (Cursor.ofTokens tokens file).fuel .eof _ _ hcursor
  unfold ofTokens Parser.fueled
  dsimp only
  rw [← hcursor.fuel]
  revert hrun
  generalize Grammar.statements _ _ (Cursor.ofTokens tokens file) = x
  generalize Grammar.statements _ _ (Cursor.ofTokens tokens' file') = y
  rintro (⟨hbody, -⟩ | he)
  · exact congrArg (Program.mk · default) hbody
  · exact he

end ScriptLang
