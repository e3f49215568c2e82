import ScriptLang.Proofs.Grammar.Rule

/-!
# Rules come to an answer

The fuel of a cursor is enough for any rule. Between two tokens rules nest three deep at
most: statements, a statement and an expression. So whatever the tokens are, they are
parsed, or there is a fault in them.
-/

namespace ScriptLang

theorem Cursor.length_next (c : Cursor) : c.next.pending.length = c.pending.length - 1 := by
  unfold Cursor.next
  split
  · next h => rw [h]; rfl
  · next h => rw [h]; rfl

theorem Cursor.pos_of_kind {c : Cursor} (h : c.current.kind ≠ .eof) : 0 < c.pending.length := by
  refine List.length_pos_iff.mpr fun hnil => h ?_
  rw [Cursor.current, Cursor.peek, hnil]
  rfl

namespace Parser

/-- A fault, or a result behind which `k` tokens less than `m` are pending. -/
inductive Answered {α : Type} (k m : Nat) : EStateM.Result Halt Cursor α → Prop
  | ok {a : α} {c : Cursor} : c.pending.length + k ≤ m → Answered k m (.ok a c)
  | fault {f : Fault} {c : Cursor} : Answered k m (.error (.fault f) c)

/-- In front of at most `m` tokens the rule comes to an answer, and has consumed `k` of
them at least if it succeeds. -/
def Consumes {α : Type} (k m : Nat) (x : Parser α) : Prop :=
  ∀ c : Cursor, c.pending.length ≤ m → Answered k m (x c)

namespace Consumes

variable {α β : Type} {j k m : Nat} {x : Parser α}

theorem pure (a : α) : Consumes 0 m (Pure.pure a) := fun _ h => .ok h

theorem fail {cause : Cause} {p : Position} : Consumes k m (Parser.fail cause p : Parser α) :=
  fun _ _ => .fault

theorem unexpected : Consumes k m (Parser.unexpected : Parser α) := fun _ _ => .fault

theorem weaken (hx : Consumes k m x) : Consumes 0 m x := by
  intro c hc
  have h := hx c hc
  revert h
  generalize x c = y
  rintro (h | _)
  · exact .ok (by omega)
  · exact .fault

theorem bind {f : α → Parser β} (hx : Consumes j m x)
    (hf : ∀ a l, l + j ≤ m → Consumes (k - j) l (f a)) : Consumes k m (x >>= f) := by
  intro c hc
  have h := hx c hc
  cases hxc : x c with
  | error h' c' =>
    rw [hxc] at h
    cases h
    rw [bind_of_error f hxc]
    exact .fault
  | ok a c' =>
    rw [hxc] at h
    cases h with
    | ok hle =>
      rw [bind_of_ok f hxc]
      have hrest := hf a _ hle c' (Nat.le_refl _)
      revert hrest
      generalize f a c' = y
      rintro (hle' | _)
      · exact .ok (by omega)
      · exact .fault

theorem map {f : α → β} (hx : Consumes k m x) : Consumes k m (f <$> x) := by
  rw [map_eq_pure_bind]
  refine hx.bind fun a l hl => ?_
  rw [Nat.sub_self]
  exact pure _

theorem ite {p : Prop} [Decidable p] {y : Parser α} (hx : p → Consumes k m x)
    (hy : ¬ p → Consumes k m y) : Consumes k m (if p then x else y) := by
  split
  · exact hx ‹_›
  · exact hy ‹_›

/-- A part that may be missing, in front of what comes behind it. -/
theorem optional {p : Prop} [Decidable p] {f : Option α → Parser β} (hx : Consumes j m x)
    (hf : ∀ a l, l ≤ m → Consumes 0 l (f a)) :
    Consumes 0 m (if p then some <$> x >>= f else Pure.pure none >>= f) :=
  ite (fun _ => hx.map.bind fun a l hl => by
    rw [Nat.zero_sub]
    exact hf a l (by omega)) fun _ => hf none m (Nat.le_refl _)

theorem optionalNot {p : Prop} [Decidable p] {f : Option α → Parser β} (hx : Consumes j m x)
    (hf : ∀ a l, l ≤ m → Consumes 0 l (f a)) :
    Consumes 0 m (if p then Pure.pure none >>= f else some <$> x >>= f) := by
  have h := optional (p := ¬ p) hx hf
  rwa [ite_not] at h

theorem spanFrom (p : Position) : Consumes 0 m (Parser.spanFrom p) := fun _ h => .ok h

/-- There is a token to consume if something is pending. -/
theorem advance (hm : 0 < m) : Consumes 1 m Parser.advance := fun c hc => .ok (by
  rw [c.length_next]
  omega)

theorem advance_zero : Consumes 0 m Parser.advance := fun c hc => .ok (by
  rw [c.length_next]
  omega)

/-- The current token tells whether something is pending. -/
theorem current_bind {f : Token → Parser α}
    (hf : ∀ t : Token, (t.kind ≠ .eof → 0 < m) → Consumes k m (f t)) :
    Consumes k m (Parser.current >>= f) := fun c hc =>
  hf c.current (fun h => Nat.lt_of_lt_of_le (Cursor.pos_of_kind h) hc) c hc

/-- A token that is asked for by a kind other than the end of the file is consumed. -/
theorem expectNamed_one {kind : TokenKind} (hk : kind ≠ .eof) (e : String) :
    Consumes 1 m (Parser.expectNamed kind e) :=
  current_bind fun _ hm => ite (fun h => advance (hm (h ▸ hk))) fun _ => fail

theorem expectNamed (kind : TokenKind) (e : String) :
    Consumes 0 m (Parser.expectNamed kind e) :=
  current_bind fun _ _ => ite (fun _ => advance_zero) fun _ => fail

theorem expect (kind : TokenKind) : Consumes 0 m (Parser.expect kind) := expectNamed _ _

theorem eat_bind (kind : TokenKind) (hk : kind ≠ .eof) {f : Bool → Parser α}
    (ht : ∀ l < m, Consumes 0 l (f true)) (hf : Consumes 0 m (f false)) :
    Consumes 0 m (Parser.eat kind >>= f) := by
  intro c hc
  rw [Parser.eat_bind]
  split
  · next h =>
    have hpos := Cursor.pos_of_kind (h ▸ hk)
    have hlength := c.length_next
    have hrest := ht c.next.pending.length (by omega) c.next (Nat.le_refl _)
    revert hrest
    generalize f true c.next = y
    rintro (hle | _)
    · exact .ok (by omega)
    · exact .fault
  · exact hf c hc

theorem eat (kind : TokenKind) : Consumes 0 m (Parser.eat kind) :=
  current_bind fun _ _ => ite (fun _ => advance_zero.bind fun _ _ _ => .pure _) fun _ => .pure _

end Consumes

end Parser

namespace Grammar

open ScriptLang.Parser

variable {m : Nat}

/-! ## Expressions -/

section

variable {ex : BindingPower → Parser Expr} {ss : Parser (List Stmt)} {args : Parser (List Expr)}
  (hex : ∀ p, ∀ l < m, Consumes 1 l (ex p)) (hss : ∀ l < m, Consumes 0 l ss)
  (hargs : ∀ l < m, Consumes 0 l args) (hm : 0 < m)

theorem consumes_block {l : Nat} {ss : Parser (List Stmt)} (hss : ∀ i < l, Consumes 0 i ss) :
    Consumes 1 l (block ss) :=
  (Consumes.expectNamed_one (nofun : TokenKind.openCurly ≠ .eof) _).bind fun _ i hi =>
    (hss i hi).bind fun _ _ _ => (Consumes.expect _).bind fun _ _ _ =>
      (Consumes.spanFrom _).bind fun _ _ _ => .pure _

theorem consumes_numberOr {α : Type} (t : Token) (value : Option α) :
    Consumes 0 m (numberOr t value) := by
  cases value with
  | some => exact .pure _
  | none => exact .fail

include hm in
theorem consumes_primary : Consumes 1 m primary := by
  refine (Consumes.advance hm).bind fun t l hl => ?_
  cases t.kind with
  | integer | float => exact (consumes_numberOr t _).bind fun _ _ _ => .pure _
  | string | trueWord | falseWord | identifier => exact .pure _
  | _ => exact .fail

include hex hm in
theorem consumes_prefixed (o : UnaryOperator) : Consumes 1 m (prefixed ex o) :=
  (Consumes.advance hm).bind fun _ l hl => (hex .unary l hl).bind fun _ _ _ => .pure _

include hex hm in
theorem consumes_grouped : Consumes 1 m (grouped ex) :=
  (Consumes.advance hm).bind fun _ l hl => (hex .default l hl).bind fun _ _ _ =>
    (Consumes.expect _).bind fun _ _ _ => (Consumes.spanFrom _).bind fun _ _ _ => .pure _

include hss hm in
theorem consumes_runBlock : Consumes 1 m (runBlock ss) :=
  (Consumes.advance hm).bind fun _ l hl => (consumes_block fun i hi => hss i (by omega)).bind
    fun _ _ _ => (Consumes.spanFrom _).bind fun _ _ _ => .pure _

include hex hss in
theorem consumes_operand : Consumes 1 m (operand ex ss) := by
  refine Consumes.current_bind fun ⟨kind, text, span⟩ hm => ?_
  cases kind with
  | integer | float | string | trueWord | falseWord | identifier =>
    exact consumes_primary (hm nofun)
  | openParen => exact consumes_grouped hex (hm nofun)
  | runWord => exact consumes_runBlock hss (hm nofun)
  | not | dash | plus | plusPlus | minusMinus => exact consumes_prefixed hex (hm nofun) _
  | _ => exact .unexpected

variable {left : Expr}

include hm in
theorem consumes_stepped (s : Step) : Consumes 1 m (stepped s left) :=
  (Consumes.advance hm).bind fun _ _ _ => .pure _

include hargs hm in
theorem consumes_called : Consumes 1 m (called args left) := by
  cases left with
  | name =>
    exact (Consumes.advance hm).bind fun _ l hl => (hargs l hl).bind fun _ _ _ =>
      (Consumes.expect _).bind fun _ _ _ => (Consumes.spanFrom _).bind fun _ _ _ => .pure _
  | _ => exact fun _ _ => .fault

include hex hm in
theorem consumes_ranged : Consumes 1 m (ranged ex left) :=
  (Consumes.advance hm).bind fun _ l hl => (hex .range l hl).bind fun _ _ _ => .pure _

include hex hm in
theorem consumes_rangeStep : Consumes 1 m (rangeStep ex left) := by
  refine (Consumes.advance hm).bind fun t l hl => ?_
  cases left with
  | range a b x d step s =>
    cases step with
    | none => exact (hex .range l hl).bind fun _ _ _ => .pure _
    | some => exact .fail
  | _ => exact .fail

include hex hm in
theorem consumes_combined (o : BinaryOperator) : Consumes 1 m (combined ex o left) :=
  (Consumes.advance hm).bind fun _ l hl => (hex o.bindingPower l hl).bind fun _ _ _ => .pure _

include hex hargs in
theorem consumes_continuation : Consumes 1 m (continuation ex args left) := by
  refine Consumes.current_bind fun ⟨kind, text, span⟩ hm => ?_
  cases kind with
  | openParen => exact consumes_called hargs (hm nofun)
  | dotDot | untilWord | downToWord => exact consumes_ranged hex (hm nofun)
  | stepWord => exact consumes_rangeStep hex (hm nofun)
  | plusPlus | minusMinus => exact consumes_stepped (hm nofun) _
  | plus | dash | star | slash | percent | less | lessEquals | greater | greaterEquals | equals
  | notEquals | and | or => exact consumes_combined hex (hm nofun) _
  | _ => exact .unexpected

end

/-! ## Statements -/

section

variable {one : Parser Expr} {st : Parser Stmt} {ss : Parser (List Stmt)}
  {ps : Parser (List Parameter)}

theorem consumes_typeName : Consumes 0 m typeName := by
  refine (Consumes.expectNamed _ _).bind fun t _ _ => ?_
  cases DeclaredType.ofName? t.text with
  | some => exact .pure _
  | none => exact .fail

theorem consumes_annotation : Consumes 0 m annotation :=
  (Consumes.eat _).bind fun _ _ _ => .ite
    (fun _ => consumes_typeName.bind fun _ _ _ => .pure _) fun _ => .pure _

variable (hone : ∀ l ≤ m, Consumes 1 l one) (hst : ∀ l < m, Consumes 1 l st)
  (hss : ∀ l < m, Consumes 0 l ss) (hps : ∀ l < m, Consumes 0 l ps) (hm : 0 < m)

include hone hm in
theorem consumes_declaration : Consumes 1 m (declaration one) := by
  refine (Consumes.advance hm).bind fun t l hl => (Consumes.expectNamed _ _).bind fun n i hi =>
    consumes_annotation.bind fun type j hj => (Consumes.eat _).bind fun _ k hk =>
      Consumes.optional (hone k (by omega)) fun v o _ => ?_
  have hend {p : Position} : Consumes 0 o (do
      return .declare n.text (t.kind == .valWord) type v (← Parser.spanFrom p) : Parser Stmt) :=
    (Consumes.spanFrom _).bind fun _ _ _ => .pure _
  exact .ite (fun _ _ _ => .fault) fun _ => hend

include hone hm in
theorem consumes_named : Consumes 1 m (named one) := by
  intro c hc
  rw [named, get_bind]
  refine (?_ : Consumes 1 m _) c hc
  cases (c.peek 1).kind.assignOperator? with
  | some =>
    exact (Consumes.advance hm).bind fun _ _ _ => Consumes.advance_zero.bind fun _ l hl =>
      (hone l (by omega)).bind fun _ _ _ => (Consumes.spanFrom _).bind fun _ _ _ => .pure _
  | none =>
    cases (c.peek 1).kind.postfixStep? with
    | some =>
      exact (Consumes.advance hm).bind fun _ _ _ => Consumes.advance_zero.bind fun _ _ _ =>
        (Consumes.spanFrom _).bind fun _ _ _ => .pure _
    | none => exact (hone m (Nat.le_refl _)).bind fun _ _ _ => .pure _

include hone hm in
theorem consumes_steppedFirst (step : Step) : Consumes 1 m (steppedFirst one step) := by
  intro c hc
  rw [steppedFirst, get_bind]
  refine (?_ : Consumes 1 m _) c hc
  exact .ite (fun _ => (Consumes.advance hm).bind fun _ _ _ => Consumes.advance_zero.bind
      fun _ _ _ => (Consumes.spanFrom _).bind fun _ _ _ => .pure _)
    fun _ => (hone m (Nat.le_refl _)).bind fun _ _ _ => .pure _

include hone hm in
theorem consumes_printing : Consumes 1 m (printing one) :=
  (Consumes.advance hm).bind fun _ l hl => (Consumes.expect _).bind fun _ i hi =>
    Consumes.current_bind fun _ _ => Consumes.optionalNot (hone i (by omega)) fun _ _ _ =>
      (Consumes.expect _).bind fun _ _ _ => (Consumes.spanFrom _).bind fun _ _ _ => .pure _

theorem consumes_condition {l : Nat} (h : ∀ i ≤ l, Consumes 1 i one) :
    Consumes 1 l (condition one) :=
  (Consumes.expect _).bind fun _ i hi => (h i hi).bind fun _ _ _ => (Consumes.expect _).bind
    fun _ _ _ => .pure _

include hone hst hm in
theorem consumes_branching : Consumes 1 m (branching one st) :=
  (Consumes.advance hm).bind fun _ l hl =>
    (consumes_condition fun i hi => hone i (by omega)).bind fun _ i hi =>
      (hst i (by omega)).bind fun _ j hj => (Consumes.eat _).bind fun _ k hk =>
        Consumes.optional (hst k (by omega)) fun _ _ _ => (Consumes.spanFrom _).bind
          fun _ _ _ => .pure _

include hone hst hm in
theorem consumes_whileLoop : Consumes 1 m (whileLoop one st) :=
  (Consumes.advance hm).bind fun _ l hl =>
    (consumes_condition fun i hi => hone i (by omega)).bind fun _ i hi =>
      (hst i (by omega)).bind fun _ _ _ => (Consumes.spanFrom _).bind fun _ _ _ => .pure _

include hone hst hm in
theorem consumes_doWhile : Consumes 1 m (doWhile one st) :=
  (Consumes.advance hm).bind fun _ l hl => (hst l hl).bind fun _ i hi =>
    (Consumes.expect _).bind fun _ j hj => (consumes_condition fun i hi => hone i (by omega)).bind
      fun _ _ _ => (Consumes.spanFrom _).bind fun _ _ _ => .pure _

include hone hst hm in
theorem consumes_forLoop : Consumes 1 m (forLoop one st) := by
  refine (Consumes.advance hm).bind fun _ l hl => (Consumes.expect _).bind fun _ i hi =>
    (Consumes.expect _).bind fun n j hj => (Consumes.expect _).bind fun _ k hk =>
      (hone k (by omega)).bind fun range _ _ => (Consumes.expect _).bind fun _ o ho => ?_
  have hend {p : Position} : Consumes 0 o (do
      let body ← st
      return .forLoop n.text range body (← Parser.spanFrom p) : Parser Stmt) :=
    (hst o (by omega)).bind fun _ _ _ => (Consumes.spanFrom _).bind fun _ _ _ => .pure _
  exact .ite (fun _ => hend) fun _ _ _ => .fault

theorem consumes_parameter : Consumes 0 m parameter :=
  (Consumes.expect _).bind fun _ _ _ => (Consumes.expect _).bind fun _ _ _ =>
    consumes_typeName.bind fun _ _ _ => .pure _

/-- The comma is what is read between the lists, so an item need not read anything. -/
theorem consumes_separated {α : Type} {item : Parser α} {others : Parser (List α)}
    (hitem : Consumes 0 m item) (hothers : ∀ l < m, Consumes 0 l others) :
    Consumes 0 m (separated item others) :=
  Consumes.current_bind fun _ _ => .ite (fun _ => .pure _) fun _ => hitem.bind fun _ l hl =>
    Consumes.eat_bind .comma nofun (fun i hi => (hothers i (by omega)).bind fun _ _ _ => .pure _)
      (.pure _)

include hps hss hm in
theorem consumes_function : Consumes 1 m (function ps ss) :=
  (Consumes.advance hm).bind fun _ l hl => (Consumes.expect _).bind fun _ i hi =>
    (Consumes.expect _).bind fun _ j hj => (hps j (by omega)).bind fun _ k hk =>
      (Consumes.expect _).bind fun _ o ho => consumes_annotation.bind fun _ r hr =>
        (consumes_block fun l hl => hss l (by omega)).bind fun _ _ _ =>
          (Consumes.spanFrom _).bind fun _ _ _ => .pure _

include hone hm in
theorem consumes_returning : Consumes 1 m (returning one) :=
  (Consumes.advance hm).bind fun _ l hl => Consumes.current_bind fun _ _ =>
    Consumes.optional (hone l (by omega)) fun _ _ _ => (Consumes.spanFrom _).bind
      fun _ _ _ => .pure _

include hone hst hss hps in
theorem consumes_anyStatement : Consumes 1 m (anyStatement one st ss ps) := by
  refine Consumes.current_bind fun ⟨kind, text, span⟩ hm => ?_
  cases kind with
  | varWord | valWord => exact consumes_declaration hone (hm nofun)
  | funWord => exact consumes_function hss hps (hm nofun)
  | ifWord => exact consumes_branching hone hst (hm nofun)
  | whileWord => exact consumes_whileLoop hone hst (hm nofun)
  | doWord => exact consumes_doWhile hone hst (hm nofun)
  | forWord => exact consumes_forLoop hone hst (hm nofun)
  | returnWord => exact consumes_returning hone (hm nofun)
  | breakWord | continueWord => exact (Consumes.advance (hm nofun)).bind fun _ _ _ => .pure _
  | printWord | printlnWord => exact consumes_printing hone (hm nofun)
  | openCurly => exact (consumes_block hss).bind fun _ _ _ => .pure _
  | identifier => exact consumes_named hone (hm nofun)
  | plusPlus | minusMinus => exact consumes_steppedFirst hone (hm nofun) _
  | _ => exact (hone m (Nat.le_refl _)).bind fun _ _ _ => .pure _

end

/-! ## The knot -/

theorem consumes_semicolons : ∀ {n m : Nat}, m < n → Consumes 0 m (semicolons n)
  | n + 1, m, h =>
    Consumes.eat_bind .semicolon nofun (fun l hl => consumes_semicolons (by omega)) (.pure _)

theorem consumes_parameters : ∀ {n m : Nat}, m < n → Consumes 0 m (parameters n)
  | n + 1, m, h => consumes_separated consumes_parameter fun l hl => consumes_parameters (by omega)

mutual

theorem consumes_expression : ∀ {n m : Nat} (p : BindingPower), 3 * m < n →
    Consumes 1 m (expression n p)
  | n + 1, m, p, h =>
    (consumes_operand (fun p l hl => consumes_expression p (by omega))
      fun l hl => consumes_statements _ (by omega)).bind fun left l hl =>
        consumes_extended p left (by omega)

theorem consumes_extended : ∀ {n m : Nat} (p : BindingPower) (left : Expr), 3 * m < n →
    Consumes 0 m (extended n p left)
  | n + 1, m, p, left, h => by
    refine Consumes.current_bind fun t hm => .ite (fun hp => ?_) fun _ => .pure _
    refine (consumes_continuation (fun p l hl => consumes_expression p (by omega))
      fun l hl => consumes_arguments (by omega)).bind fun wider l hl => ?_
    exact consumes_extended p wider (by omega)

theorem consumes_arguments : ∀ {n m : Nat}, 3 * m + 1 < n → Consumes 0 m (arguments n)
  | n + 1, m, h => consumes_separated (consumes_expression _ (by omega)).weaken
      fun l hl => consumes_arguments (by omega)

theorem consumes_statement : ∀ {n m : Nat}, 3 * m + 1 < n → Consumes 1 m (statement n)
  | n + 1, m, h =>
    (consumes_anyStatement (fun l hl => consumes_expression _ (by omega))
      (fun l hl => consumes_statement (by omega)) (fun l hl => consumes_statements _ (by omega))
      fun l hl => consumes_parameters (by omega)).bind fun _ l hl =>
        (consumes_semicolons (by omega)).bind fun _ _ _ => .pure _

theorem consumes_statements : ∀ {n m : Nat} (close : TokenKind), 3 * m + 2 < n →
    Consumes 0 m (statements n close)
  | n + 1, m, close, h =>
    Consumes.current_bind fun _ _ => .ite (fun _ => .pure _) fun _ =>
      Consumes.eat_bind .semicolon nofun (fun l hl => consumes_statements close (by omega))
        ((consumes_statement (by omega)).bind fun _ l hl =>
          (consumes_statements close (by omega)).bind fun _ _ _ => .pure _)

end

end Grammar

/-- Tokens make a tree, or there is a fault in them. -/
theorem Program.ofTokens_answers (tokens : List Token) (file : String) :
    (∃ p, ofTokens tokens file = .ok p) ∨ ∃ f, ofTokens tokens file = .error (.fault f) := by
  have h := Grammar.consumes_statements .eof (Nat.lt_succ_self _)
    (Cursor.ofTokens tokens file) (Nat.le_refl _)
  unfold ofTokens Parser.fueled Cursor.fuel
  dsimp only
  revert h
  generalize Grammar.statements _ _ (Cursor.ofTokens tokens file) = x
  rintro (_ | _)
  · exact .inl ⟨_, rfl⟩
  · exact .inr ⟨_, rfl⟩

end ScriptLang
