import ScriptLang.Proofs.Grammar.Rule
import ScriptLang.Proofs.Tree.WellFormed

/-!
# Faults and nodes are where tokens start

A rule reads a position off a token, or off the start of a tree it has made before. So if
a property holds of the positions at which tokens start, the end of the file included, it
holds of the position of every fault and of the start of every node.
-/

namespace ScriptLang

variable {P : Position → Prop}

/-- The property holds where each of the tokens ahead starts. -/
structure Cursor.Within (P : Position → Prop) (c : Cursor) : Prop where
  pending : ∀ t ∈ c.pending, P t.span.start
  finish : P c.endSpan.start

namespace Cursor.Within

variable {c : Cursor}

theorem current (h : c.Within P) : P c.current.span.start := by
  unfold Cursor.current peek
  cases hp : c.pending with
  | nil => exact h.finish
  | cons t ts => exact h.pending t (hp ▸ List.mem_cons_self)

theorem next (h : c.Within P) : c.next.Within P := by
  unfold Cursor.next
  split
  · exact h
  · next t ts hp => exact ⟨fun u hu => h.pending u (hp ▸ List.mem_cons_of_mem _ hu), h.finish⟩

end Cursor.Within

namespace Parser

variable {α β : Type}

/-- A result with a property, no fuel any more, or a fault where a token starts. -/
inductive EndsPlaced (P : Position → Prop) (q : α → Prop) : EStateM.Result Halt Cursor α → Prop
  | ok {a : α} {c : Cursor} : q a → c.Within P → EndsPlaced P q (.ok a c)
  | fault {f : Fault} {c : Cursor} : P f.position → EndsPlaced P q (.error (.fault f) c)
  | outOfFuel {c : Cursor} : EndsPlaced P q (.error .outOfFuel c)

/-- If tokens start only where they may, faults are only there, and results have a property. -/
def Places (P : Position → Prop) (q : α → Prop) (x : Parser α) : Prop :=
  ∀ c : Cursor, c.Within P → EndsPlaced P q (x c)

namespace Places

variable {q : α → Prop} {r : β → Prop} {x : Parser α}

theorem pure {a : α} (h : q a) : Places P q (Pure.pure a) := fun _ hc => .ok h hc

theorem fail {cause : Cause} {p : Position} (h : P p) : Places P q (Parser.fail cause p) :=
  fun _ _ => .fault h

theorem unexpected : Places P q (Parser.unexpected : Parser α) := fun _ hc => .fault hc.current

theorem outOfFuel : Places P q (Parser.outOfFuel : Parser α) := fun _ _ => .outOfFuel

theorem bind {f : α → Parser β} (hx : Places P q x) (hf : ∀ a, q a → Places P r (f a)) :
    Places P r (x >>= f) := by
  intro c hc
  have h := hx c hc
  cases hxc : x c with
  | ok a c' =>
    rw [hxc] at h
    cases h with
    | ok ha hc' =>
      rw [bind_of_ok f hxc]
      exact hf a ha c' hc'
  | error e c' =>
    rw [hxc] at h
    rw [bind_of_error f hxc]
    cases h with
    | fault hp => exact .fault hp
    | outOfFuel => exact .outOfFuel

theorem map {f : α → β} (hx : Places P q x) (hf : ∀ a, q a → r (f a)) :
    Places P r (f <$> x) := by
  rw [map_eq_pure_bind]
  exact hx.bind fun a ha => pure (hf a ha)

theorem ite {p : Prop} [Decidable p] {y : Parser α} (hx : p → Places P q x)
    (hy : ¬ p → Places P q y) : Places P q (if p then x else y) := by
  split
  · exact hx ‹_›
  · exact hy ‹_›

/-- A part that may be missing, in front of what comes behind it. -/
theorem optional {p : Prop} [Decidable p] {f : Option α → Parser β} (hx : Places P q x)
    (hf : ∀ a, (∀ b ∈ a, q b) → Places P r (f a)) :
    Places P r (if p then some <$> x >>= f else Pure.pure none >>= f) :=
  ite (fun _ => (hx.map (r := fun a => ∀ b ∈ a, q b) fun _ ha _ hb =>
    Option.mem_some_iff.mp hb ▸ ha).bind hf) fun _ => hf none nofun

theorem optionalNot {p : Prop} [Decidable p] {f : Option α → Parser β} (hx : Places P q x)
    (hf : ∀ a, (∀ b ∈ a, q b) → Places P r (f a)) :
    Places P r (if p then Pure.pure none >>= f else some <$> x >>= f) := by
  have h := optional (p := ¬ p) hx hf
  rwa [ite_not] at h

theorem current_bind {f : Token → Parser α}
    (hf : ∀ t : Token, P t.span.start → Places P q (f t)) : Places P q (Parser.current >>= f) :=
  fun c hc => hf c.current hc.current c hc

theorem position : Places P P Parser.position := fun _ hc => .ok hc.current hc

theorem advance : Places P (fun t => P t.span.start) Parser.advance :=
  fun _ hc => .ok hc.current hc.next

theorem expectNamed (kind : TokenKind) (e : String) :
    Places P (fun t => P t.span.start) (Parser.expectNamed kind e) :=
  current_bind fun _ ht => ite (fun _ => advance) fun _ => fail ht

theorem expect (kind : TokenKind) : Places P (fun t => P t.span.start) (Parser.expect kind) :=
  expectNamed kind _

theorem eat (kind : TokenKind) : Places P (fun _ => True) (Parser.eat kind) :=
  current_bind fun _ _ => ite (fun _ => advance.bind fun _ _ => pure trivial) fun _ => pure trivial

/-- A span starts where it is told to. -/
theorem spanFrom {p : Position} (h : P p) :
    Places P (fun s => P s.start) (Parser.spanFrom p) := fun _ hc => .ok h hc

end Places

end Parser

namespace Grammar

open ScriptLang.Parser

theorem inOption_of_forall {p : NodeProperty} {e : Option Expr} (h : ∀ a ∈ e, p.InExpr a) :
    p.InOption e := by
  cases e with
  | none => trivial
  | some a => exact h a rfl

/-! ## Expressions -/

section

variable {ex : BindingPower → Parser Expr} {ss : Parser (List Stmt)} {args : Parser (List Expr)}
  (hex : ∀ p, Places P (positioned P).InExpr (ex p)) (hss : Places P (positioned P).InStmts ss)
  (hargs : Places P (positioned P).InExprs args)

include hss in
theorem places_block :
    Places P (fun b => P b.span.start ∧ (positioned P).InStmts b.body) (block ss) :=
  (Places.expect _).bind fun _ ht => hss.bind fun _ hbody => (Places.expect _).bind fun _ _ =>
    (Places.spanFrom ht).bind fun _ hs => .pure ⟨hs, hbody⟩

theorem places_numberOr {α : Type} {t : Token} (ht : P t.span.start) (value : Option α) :
    Places P (fun _ => True) (numberOr t value) := by
  cases value with
  | some => exact .pure trivial
  | none => exact .fail ht

theorem places_primary : Places P (positioned P).InExpr primary := by
  refine Places.advance.bind fun t ht => ?_
  cases t.kind with
  | integer | float => exact (places_numberOr ht _).bind fun _ _ => .pure ht
  | string | trueWord | falseWord | identifier => exact .pure ht
  | _ => exact .fail ht

include hex in
theorem places_prefixed (o : UnaryOperator) : Places P (positioned P).InExpr (prefixed ex o) :=
  Places.advance.bind fun _ ht => (hex .unary).bind fun _ he => .pure ⟨ht, he⟩

include hex in
theorem places_grouped : Places P (positioned P).InExpr (grouped ex) :=
  Places.advance.bind fun _ ht => (hex .default).bind fun _ he => (Places.expect _).bind fun _ _ =>
    (Places.spanFrom ht).bind fun _ hs => .pure ⟨hs, he⟩

include hss in
theorem places_runBlock : Places P (positioned P).InExpr (runBlock ss) :=
  Places.advance.bind fun _ ht => (places_block hss).bind fun ⟨_, _⟩ hb =>
    (Places.spanFrom ht).bind fun _ hs => .pure ⟨hs, hb.2⟩

include hex hss in
theorem places_operand : Places P (positioned P).InExpr (operand ex ss) := by
  refine Places.current_bind fun ⟨kind, text, span⟩ _ => ?_
  cases kind with
  | integer | float | string | trueWord | falseWord | identifier => exact places_primary
  | openParen => exact places_grouped hex
  | runWord => exact places_runBlock hss
  | not | dash | plus | plusPlus | minusMinus => exact places_prefixed hex _
  | _ => exact .unexpected

variable {left : Expr} (hl : (positioned P).InExpr left)

include hl

theorem places_stepped (s : Step) : Places P (positioned P).InExpr (stepped s left) :=
  Places.advance.bind fun _ _ => .pure ⟨start_of_positioned (e := left) hl, hl⟩

include hargs in
theorem places_called : Places P (positioned P).InExpr (called args left) := by
  cases left with
  | name =>
    exact Places.advance.bind fun _ _ => hargs.bind fun _ hes => (Places.expect _).bind
      fun _ _ => (Places.spanFrom hl).bind fun _ hs => .pure ⟨hs, hes⟩
  | _ => exact Places.position.bind fun _ hp => .fail hp

include hex in
theorem places_ranged : Places P (positioned P).InExpr (ranged ex left) :=
  Places.advance.bind fun _ _ => (hex .range).bind fun _ he =>
    .pure ⟨start_of_positioned (e := left) hl, hl, he, trivial⟩

include hex in
theorem places_rangeStep : Places P (positioned P).InExpr (rangeStep ex left) := by
  refine Places.advance.bind fun t ht => ?_
  cases left with
  | range a b x d step s =>
    cases step with
    | none =>
      obtain ⟨hs, ha, hb, -⟩ := hl
      exact (hex .range).bind fun _ he => .pure ⟨hs, ha, hb, he⟩
    | some => exact .fail ht
  | _ => exact .fail ht

include hex in
theorem places_combined (o : BinaryOperator) : Places P (positioned P).InExpr (combined ex o left) :=
  Places.advance.bind fun _ _ => (hex o.bindingPower).bind fun _ he =>
    .pure ⟨start_of_positioned (e := left) hl, hl, he⟩

include hex hargs in
theorem places_continuation : Places P (positioned P).InExpr (continuation ex args left) := by
  refine Places.current_bind fun ⟨kind, text, span⟩ _ => ?_
  cases kind with
  | openParen => exact places_called hargs hl
  | dotDot | untilWord | downToWord => exact places_ranged hex hl
  | stepWord => exact places_rangeStep hex hl
  | plusPlus | minusMinus => exact places_stepped hl _
  | plus | dash | star | slash | percent | less | lessEquals | greater | greaterEquals | equals
  | notEquals | and | or => exact places_combined hex hl _
  | _ => exact .unexpected

end

/-! ## Statements -/

section

variable {one : Parser Expr} {st : Parser Stmt} {ss : Parser (List Stmt)}
  {ps : Parser (List Parameter)}

theorem places_typeName : Places P (fun _ => True) typeName := by
  refine (Places.expectNamed _ _).bind fun t ht => ?_
  cases DeclaredType.ofName? t.text with
  | some => exact .pure trivial
  | none => exact .fail ht

theorem places_annotation : Places P (fun _ => True) annotation :=
  (Places.eat _).bind fun _ _ => .ite
    (fun _ => places_typeName.bind fun _ _ => .pure trivial) fun _ => .pure trivial

variable (hone : Places P (positioned P).InExpr one) (hst : Places P (positioned P).InStmt st)
  (hss : Places P (positioned P).InStmts ss) (hps : Places P (fun _ => True) ps)

include hone in
theorem places_expression :
    Places P (positioned P).InStmt (do return .expression (← one)) :=
  hone.bind fun _ he => .pure ⟨start_of_positioned he, he⟩

include hone in
theorem places_declaration : Places P (positioned P).InStmt (declaration one) := by
  refine Places.advance.bind fun t ht => (Places.expectNamed _ _).bind fun n _ =>
    places_annotation.bind fun type _ => (Places.eat _).bind fun _ _ =>
      Places.optional hone fun v hv => ?_
  have hend : Places P (positioned P).InStmt (do
      return .declare n.text (t.kind == .valWord) type v (← Parser.spanFrom t.span.start)) :=
    (Places.spanFrom ht).bind fun _ hs => .pure ⟨hs, inOption_of_forall hv⟩
  exact .ite (fun _ => (Places.fail (q := fun _ => True) ht).bind fun _ _ => hend) fun _ => hend

include hone in
theorem places_named : Places P (positioned P).InStmt (named one) := by
  intro c hc
  rw [named, get_bind]
  refine (?_ : Places P _ _) c hc
  cases (c.peek 1).kind.assignOperator? with
  | some =>
    exact Places.advance.bind fun _ ht => Places.advance.bind fun _ _ => hone.bind fun _ he =>
      (Places.spanFrom ht).bind fun _ hs => .pure ⟨hs, he⟩
  | none =>
    cases (c.peek 1).kind.postfixStep? with
    | some =>
      exact Places.advance.bind fun _ ht => Places.advance.bind fun _ _ =>
        (Places.spanFrom ht).bind fun _ hs => .pure ⟨hs, trivial⟩
    | none => exact places_expression hone

include hone in
theorem places_steppedFirst (step : Step) :
    Places P (positioned P).InStmt (steppedFirst one step) := by
  intro c hc
  rw [steppedFirst, get_bind]
  refine (?_ : Places P _ _) c hc
  exact .ite (fun _ => Places.advance.bind fun _ ht => Places.advance.bind fun _ _ =>
      (Places.spanFrom ht).bind fun _ hs => .pure ⟨hs, trivial⟩)
    fun _ => places_expression hone

include hone in
theorem places_printing : Places P (positioned P).InStmt (printing one) :=
  Places.advance.bind fun _ ht => (Places.expect _).bind fun _ _ => Places.current_bind
    fun _ _ => Places.optionalNot hone fun _ hv => (Places.expect _).bind fun _ _ =>
      (Places.spanFrom ht).bind fun _ hs => .pure ⟨hs, inOption_of_forall hv⟩

include hone in
theorem places_condition : Places P (positioned P).InExpr (condition one) :=
  (Places.expect _).bind fun _ _ => hone.bind fun _ he => (Places.expect _).bind
    fun _ _ => .pure he

include hone hst in
theorem places_branching : Places P (positioned P).InStmt (branching one st) := by
  refine Places.advance.bind fun _ ht => (places_condition hone).bind fun _ hc =>
    hst.bind fun _ ha => (Places.eat _).bind fun _ _ => Places.optional hst fun b hb =>
      (Places.spanFrom ht).bind fun _ hs => .pure ⟨hs, hc, ha, ?_⟩
  cases b with
  | none => trivial
  | some b => exact hb b rfl

include hone hst in
theorem places_whileLoop : Places P (positioned P).InStmt (whileLoop one st) :=
  Places.advance.bind fun _ ht => (places_condition hone).bind fun _ hc => hst.bind fun _ hb =>
    (Places.spanFrom ht).bind fun _ hs => .pure ⟨hs, hc, hb⟩

include hone hst in
theorem places_doWhile : Places P (positioned P).InStmt (doWhile one st) :=
  Places.advance.bind fun _ ht => hst.bind fun _ hb => (Places.expect _).bind fun _ _ =>
    (places_condition hone).bind fun _ hc => (Places.spanFrom ht).bind fun _ hs =>
      .pure ⟨hs, hb, hc⟩

include hone hst in
/-- What is no range is reported where it starts. -/
theorem places_forLoop : Places P (positioned P).InStmt (forLoop one st) := by
  refine Places.advance.bind fun t ht => (Places.expect _).bind fun _ _ =>
    (Places.expect _).bind fun n _ => (Places.expect _).bind fun _ _ =>
      hone.bind fun range hr => (Places.expect _).bind fun _ _ => ?_
  have hend : Places P (positioned P).InStmt (do
      let body ← st
      return .forLoop n.text range body (← Parser.spanFrom t.span.start)) :=
    hst.bind fun _ hb => (Places.spanFrom ht).bind fun _ hs => .pure ⟨hs, hr, hb⟩
  exact .ite (fun _ => hend) fun _ =>
    (Places.fail (q := fun _ => True) (start_of_positioned hr)).bind fun _ _ => hend

theorem places_parameter : Places P (fun _ => True) parameter :=
  (Places.expect _).bind fun _ _ => (Places.expect _).bind fun _ _ =>
    places_typeName.bind fun _ _ => .pure trivial

theorem places_separated {α : Type} {q : α → Prop} {r : List α → Prop} {item : Parser α}
    {others : Parser (List α)} (hnil : r []) (hcons : ∀ a as, q a → r as → r (a :: as))
    (hitem : Places P q item) (hothers : Places P r others) :
    Places P r (separated item others) :=
  Places.current_bind fun _ _ => .ite (fun _ => .pure hnil) fun _ => hitem.bind fun a ha =>
    (Places.eat _).bind fun _ _ => .ite
      (fun _ => hothers.bind fun as has => .pure (hcons a as ha has))
      fun _ => .pure (hcons a [] ha hnil)

include hps hss in
theorem places_function : Places P (positioned P).InStmt (function ps ss) :=
  Places.advance.bind fun _ ht => (Places.expect _).bind fun _ _ => (Places.expect _).bind
    fun _ _ => hps.bind fun _ _ => (Places.expect _).bind fun _ _ => places_annotation.bind
      fun _ _ => (places_block hss).bind fun ⟨_, _⟩ hb => (Places.spanFrom ht).bind
        fun _ hs => .pure ⟨hs, hb.2⟩

include hone in
theorem places_returning : Places P (positioned P).InStmt (returning one) :=
  Places.advance.bind fun _ ht => Places.current_bind fun _ _ => Places.optional hone
    fun _ hv => (Places.spanFrom ht).bind fun _ hs => .pure ⟨hs, inOption_of_forall hv⟩

include hone hst hss hps in
theorem places_anyStatement : Places P (positioned P).InStmt (anyStatement one st ss ps) := by
  refine Places.current_bind fun ⟨kind, text, span⟩ _ => ?_
  cases kind with
  | varWord | valWord => exact places_declaration hone
  | funWord => exact places_function hss hps
  | ifWord => exact places_branching hone hst
  | whileWord => exact places_whileLoop hone hst
  | doWord => exact places_doWhile hone hst
  | forWord => exact places_forLoop hone hst
  | returnWord => exact places_returning hone
  | breakWord | continueWord => exact Places.advance.bind fun _ ht => .pure ht
  | printWord | printlnWord => exact places_printing hone
  | openCurly => exact (places_block hss).bind fun ⟨_, _⟩ hb => .pure hb
  | identifier => exact places_named hone
  | plusPlus | minusMinus => exact places_steppedFirst hone _
  | _ => exact places_expression hone

end

/-! ## The knot -/

theorem places_semicolons (n : Nat) : Places P (fun _ => True) (semicolons n) := by
  induction n with
  | zero => exact .outOfFuel
  | succ n ih => exact (Places.eat _).bind fun _ _ => .ite (fun _ => ih) fun _ => .pure trivial

theorem places_parameters (n : Nat) : Places P (fun _ => True) (parameters n) := by
  induction n with
  | zero => exact .outOfFuel
  | succ n ih =>
    exact places_separated (q := fun _ => True) trivial (fun _ _ _ _ => trivial)
      places_parameter ih

/-- What the rules of the knot make on `n` units of fuel starts where tokens start. -/
structure Placing (P : Position → Prop) (n : Nat) : Prop where
  expression : ∀ p, Places P (positioned P).InExpr (expression n p)
  extended : ∀ p left, (positioned P).InExpr left → Places P (positioned P).InExpr (extended n p left)
  arguments : Places P (positioned P).InExprs (arguments n)
  statement : Places P (positioned P).InStmt (statement n)
  statements : ∀ close, Places P (positioned P).InStmts (statements n close)

theorem placing (P : Position → Prop) (n : Nat) : Placing P n := by
  -- The rules call one another on a unit of fuel less, whatever they read.
  induction n with
  | zero => exact ⟨fun _ => .outOfFuel, fun _ _ _ => .outOfFuel, .outOfFuel, .outOfFuel,
      fun _ => .outOfFuel⟩
  | succ n ih =>
    constructor
    · exact fun p => (places_operand ih.expression (ih.statements _)).bind fun left hl =>
        ih.extended p left hl
    · intro p left hl
      refine Places.current_bind fun _ _ => .ite (fun _ => ?_) fun _ => .pure hl
      exact (places_continuation ih.expression ih.arguments hl).bind fun wider hw =>
        ih.extended p wider hw
    · exact places_separated trivial (fun _ _ => And.intro) (ih.expression _) ih.arguments
    · exact (places_anyStatement (ih.expression _) ih.statement (ih.statements _)
        (places_parameters n)).bind fun _ hs => (places_semicolons n).bind fun _ _ => .pure hs
    · refine fun close => Places.current_bind fun _ _ => .ite (fun _ => .pure trivial) fun _ => ?_
      refine (Places.eat _).bind fun _ _ => .ite (fun _ => ih.statements close) fun _ => ?_
      exact ih.statement.bind fun _ hs => (ih.statements close).bind fun _ hrest => .pure ⟨hs, hrest⟩

end Grammar

/-- If a property holds of the start of the source and of every token in it, the faults and
the nodes that come of the tokens have it. -/
theorem Program.ofTokens_placed {P : Position → Prop} {tokens : List Token} {file : String}
    (hc : (Cursor.ofTokens tokens file).Within P) :
    (∀ f, ofTokens tokens file = .error (.fault f) → P f.position) ∧
      ∀ p, ofTokens tokens file = .ok p → (positioned P).InProgram p := by
  have h := (Grammar.placing P (Cursor.ofTokens tokens file).fuel).statements .eof _ hc
  unfold ofTokens Parser.fueled
  dsimp only
  revert h
  generalize Grammar.statements _ _ (Cursor.ofTokens tokens file) = x
  rintro (⟨hbody, -⟩ | hp | _)
  · exact ⟨nofun, fun p hp => by cases hp; exact hbody⟩
  · exact ⟨fun f hf => by cases hf; exact hp, nofun⟩
  · exact ⟨nofun, nofun⟩

end ScriptLang
