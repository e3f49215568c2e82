import ScriptLang.Proofs.Grammar.Ahead
import ScriptLang.Proofs.Grammar.Rule
import ScriptLang.Proofs.Tree.Grouping

/-!
# A parsed program is a derivation of its tokens

Between the cursors before and behind a rule stand the terminals of the tree it
gave, up to what no tree keeps. The invariant of the operator loop is that the
next token never binds tighter than the operand read so far, a call excepted,
which only a name can begin.
-/

namespace ScriptLang

theorem DeclaredType.name_of_ofName? {s : String} {t : DeclaredType} (h : ofName? s = some t) :
    s = t.name := by
  have hn := List.find?_some h
  exact (beq_iff_eq.mp hn).symm

/-- Kinds of tokens that every tree keeps. -/
def TokenKind.isKept : TokenKind → Bool
  | .eof | .semicolon | .comma | .colon => false
  | _ => true

/-- Kinds of tokens that every tree keeps and that have no text of their own. -/
def TokenKind.isMark (k : TokenKind) : Bool := k.isKept && !k.carriesText

theorem BinaryOperator.isMark_token (o : BinaryOperator) : o.token.isMark := by
  rcases o with (_ | _ | _ | _ | _) | (_ | _ | _ | _ | _ | _) | (_ | _) <;> rfl

theorem UnaryOperator.isMark_token (o : UnaryOperator) : o.token.isMark := by
  rcases o with _ | _ | _ | (_ | _ | _ | _) <;> rfl

theorem AssignOperator.isMark_token (o : AssignOperator) : o.token.isMark := by
  rcases o with _ | (_ | _ | _ | _ | _) | (_ | _ | _ | _) <;> rfl

/-- A literal or a name stands for its one token. -/
theorem Terminal.primary?_spec {t : Terminal} {s : Span} {e : Expr} (h : some e = t.primary? s) :
    (∀ ends, e.terminals ends = [t]) ∧ e.power = .primary ∧ grouping.InExpr e ∧
      t.kind.isKept := by
  cases t with
  | symbol k =>
    cases k <;> simp only [primary?, reduceCtorEq, Option.some.injEq] at h <;> subst h <;>
      exact ⟨fun _ => rfl, rfl, trivial, rfl⟩
  | _ =>
    simp only [primary?, Option.some.injEq] at h
    subst h
    exact ⟨fun _ => rfl, rfl, trivial, rfl⟩

namespace Cursor

/-- From one cursor to the other stand the tokens of `kept`, up to those that
no tree keeps, and no end of the file. -/
structure Reads (c : Cursor) (kept : List Terminal) (c' : Cursor) : Prop where
  taken : ∃ ts, c.pending = ts ++ c'.pending ∧ ∀ t ∈ ts, t.kind ≠ .eof
  colon : c.current.kind = .colon → c'.current.kind = .colon
  skim : c'.current.kind ≠ .colon → essentials c.ahead = kept ++ essentials c'.ahead

namespace Reads

variable {c c₁ c' : Cursor} {ts us : List Terminal}

theorem refl (c : Cursor) : c.Reads [] c := ⟨⟨[], rfl, by simp⟩, id, fun _ => rfl⟩

theorem trans (h : c.Reads ts c₁) (h' : c₁.Reads us c') : c.Reads (ts ++ us) c' := by
  obtain ⟨xs, hx, hxe⟩ := h.taken
  obtain ⟨ys, hy, hye⟩ := h'.taken
  refine ⟨⟨xs ++ ys, by rw [hx, hy, List.append_assoc], ?_⟩, h'.colon ∘ h.colon, fun hc => ?_⟩
  · intro t ht
    rcases List.mem_append.mp ht with ht | ht
    · exact hxe t ht
    · exact hye t ht
  · rw [h.skim fun hc₁ => hc (h'.colon hc₁), h'.skim hc, List.append_assoc]

/-- A single token. -/
theorem token (h : c.current.kind.isKept) : c.Reads [c.current.terminal] c.next := by
  have he : c.current.kind ≠ .eof := by rintro he; simp [he, TokenKind.isKept] at h
  refine ⟨⟨[c.current], pending_eq he, by simpa using he⟩, ?_, fun hc => ?_⟩
  · intro hc
    simp [hc, TokenKind.isKept] at h
  · rw [ahead_eq he, essentials_cons]
    · rfl
    · intro hs
      rw [Token.terminal_kind] at hs
      simp [hs, TokenKind.isKept] at h
    · intro hs
      rw [Token.terminal_kind] at hs
      simp [hs, TokenKind.isKept] at h
    · intro _ u hu
      rwa [ahead_head hu, Token.terminal_kind]

theorem symbol {k : TokenKind} (h : c.current.kind = k) (hk : k.isMark) :
    c.Reads [.symbol k] c.next := by
  simp only [TokenKind.isMark, Bool.and_eq_true, Bool.not_eq_true'] at hk
  rw [← Token.terminal_eq_symbol h hk.2]
  exact token (h ▸ hk.1)

theorem name (h : c.current.kind = .identifier) : c.Reads [.name c.current.text] c.next := by
  rw [← Token.terminal_eq_name h]
  exact token (h ▸ rfl)

theorem semicolon (h : c.current.kind = .semicolon) : c.Reads [] c.next := by
  have he : c.current.kind ≠ .eof := by simp [h]
  refine ⟨⟨[c.current], pending_eq he, by simpa using he⟩, by simp [h], fun _ => ?_⟩
  rw [ahead_eq he, Token.terminal_eq_symbol h rfl, essentials_semicolon]
  rfl

/-- A comma with something behind it. -/
theorem comma (h : c.current.kind = .comma) (hn : c.next.current.kind ≠ .closeParen) :
    c.Reads [.symbol .comma] c.next := by
  have he : c.current.kind ≠ .eof := by simp [h]
  refine ⟨⟨[c.current], pending_eq he, by simpa using he⟩, by simp [h], fun _ => ?_⟩
  rw [ahead_eq he, Token.terminal_eq_symbol h rfl, essentials_comma]
  · rfl
  · intro u hu
    rwa [ahead_head hu, Token.terminal_kind]

/-- A comma before a closing parenthesis. -/
theorem trailing (h : c.current.kind = .comma) (hn : c.next.current.kind = .closeParen)
    (hr : c.next.Reads ts c') : c.Reads ts c' := by
  have he : c.current.kind ≠ .eof := by simp [h]
  have hn' : c.next.current.kind ≠ .eof := by simp [hn]
  obtain ⟨xs, hx, hxe⟩ := hr.taken
  refine ⟨⟨c.current :: xs, ?_, ?_⟩, by simp [h], fun hc => ?_⟩
  · rw [pending_eq he, hx]
    rfl
  · intro t hm
    rcases List.mem_cons.mp hm with rfl | hm
    · exact he
    · exact hxe t hm
  · rw [← hr.skim hc, ahead_eq he, ahead_eq hn', Token.terminal_eq_symbol h rfl,
      Token.terminal_eq_symbol hn rfl, essentials_trailing]

/-- A colon and a type. -/
theorem type_taken {t : DeclaredType} (hc : c.current.kind = .colon)
    (h : Grammar.typeName c.next = .ok t c') :
    c.pending = [c.current, c.next.current] ++ c'.pending ∧ c.next.current.kind ≠ .eof ∧
      c.ahead = t.annotation ++ c'.ahead := by
  obtain ⟨hk, ht, rfl⟩ := Grammar.typeName_ok.mp h
  have he : c.current.kind ≠ .eof := by simp [hc]
  have hk' : c.next.current.kind ≠ .eof := by simp [hk]
  refine ⟨by rw [pending_eq he, pending_eq hk']; rfl, hk', ?_⟩
  rw [ahead_eq he, ahead_eq hk', Token.terminal_eq_symbol hc rfl, Token.terminal_eq_name hk,
    DeclaredType.name_of_ofName? ht.symm]
  rfl

/-- A name and its type. -/
theorem typed {t : DeclaredType} (hn : c.current.kind = .identifier)
    (hc : c.next.current.kind = .colon) (h : Grammar.typeName c.next.next = .ok t c') :
    c.Reads (.name c.current.text :: t.annotation) c' := by
  obtain ⟨hp, hk, ha⟩ := type_taken hc h
  have he : c.current.kind ≠ .eof := by simp [hn]
  have hc' : c.next.current.kind ≠ .eof := by simp [hc]
  refine ⟨⟨[c.current, c.next.current, c.next.next.current], ?_, ?_⟩, by simp [hn], fun _ => ?_⟩
  · rw [pending_eq he, hp]
    rfl
  · simp [he, hc', hk]
  · rw [ahead_eq he, ha, Token.terminal_eq_name hn, DeclaredType.annotation]
    simp only [List.cons_append, List.nil_append]
    rw [essentials_cons, essentials_cons, essentials_cons] <;> simp [Terminal.kind]

/-- The end of a parameter list, and the result type if one is written. -/
theorem result {t : Option DeclaredType} (hp : c.current.kind = .closeParen)
    (h : Grammar.annotation c.next = .ok t c') :
    c.Reads (.symbol .closeParen :: (t.getD .unit).result) c' := by
  rcases Grammar.annotation_ok.mp h with ⟨hc, t', ht, rfl⟩ | ⟨_, rfl, rfl⟩
  · obtain ⟨hx, hk, ha⟩ := type_taken hc ht
    have he : c.current.kind ≠ .eof := by simp [hp]
    have hc' : c.next.current.kind ≠ .eof := by simp [hc]
    refine ⟨⟨[c.current, c.next.current, c.next.next.current], ?_, ?_⟩, by simp [hp], fun _ => ?_⟩
    · rw [pending_eq he, hx]
      rfl
    · simp [he, hc', hk]
    · rw [ahead_eq he, ha, Token.terminal_eq_symbol hp rfl, ← List.cons_append,
        essentials_result]
      rfl
  · exact symbol hp rfl

end Reads

end Cursor

namespace Grammar

open ScriptLang.Parser

/-! ## What the rules of the knot read -/

/-- An expression read at a place that asks for operators above `p`. -/
structure ReadsExpr (p : BindingPower) (c : Cursor) (e : Expr) (c' : Cursor) : Prop where
  reads : c.Reads (e.terminals []) c'
  groups : grouping.InExpr e
  power : p < e.power ∨ .unary ≤ e.power
  stop : c'.current.kind.bindingPower ≤ p

/-- What extends `left` on the right. -/
structure Extends (left : Expr) (c : Cursor) (e : Expr) (c' : Cursor) : Prop where
  reads : ∃ ts, e.terminals [] = left.terminals [] ++ ts ∧ c.Reads ts c'
  groups : grouping.InExpr e

/-- The operator behind `left`, if there is one, binds no tighter than `left`. -/
def Fits (left : Expr) (c : Cursor) : Prop :=
  c.current.kind.bindingPower ≤ left.power ∨ c.current.kind = .openParen

/-- What the operator behind `left` makes of it. -/
structure Continues (left : Expr) (c : Cursor) (e : Expr) (c' : Cursor) : Prop
    extends Extends left c e c' where
  power : e.power = c.current.kind.bindingPower
  fits : Fits e c'

structure ReadsStmt (c : Cursor) (s : Stmt) (c' : Cursor) : Prop where
  reads : c.Reads (s.terminals []) c'
  groups : grouping.InStmt s

structure ReadsStmts (close : TokenKind) (c : Cursor) (body : List Stmt) (c' : Cursor) :
    Prop where
  reads : c.Reads (Stmt.listTerminals [] body) c'
  groups : grouping.InStmts body
  stop : c'.current.kind = close

/-- Items with commas between, read up to a closing parenthesis. Whether a comma
stays depends on what is read behind it. -/
structure ReadsList {α : Type} (terminals : α → List Terminal) (groups : α → Prop) (c : Cursor)
    (as : List α) (c' : Cursor) : Prop where
  reads : c'.current.kind = .closeParen → ∀ {ts d}, c'.Reads ts d →
    c.Reads (separatedTerminals (as.map terminals) ++ ts) d
  groups : ∀ a ∈ as, groups a
  start : (as = [] ∧ c' = c) ∨ (as ≠ [] ∧ c.current.kind ≠ .closeParen)

theorem separatedTerminals_cons {ts us : List Terminal} {rest : List (List Terminal)} :
    separatedTerminals (ts :: us :: rest) =
      ts ++ .symbol .comma :: separatedTerminals (us :: rest) := rfl

theorem separated_reads {α : Type} {terminals : α → List Terminal} {groups : α → Prop}
    {item : Parser α} {others : Parser (List α)} {c c' : Cursor} {as : List α}
    (hitem : ∀ {c a c'}, item c = .ok a c' → c.Reads (terminals a) c' ∧ groups a)
    (hothers : ∀ {c as c'}, others c = .ok as c' → ReadsList terminals groups c as c')
    (h : separated item others c = .ok as c') : ReadsList terminals groups c as c' := by
  rcases separated_ok.mp h with ⟨hk, rfl, rfl⟩ | ⟨hk, first, c₁, hi, h⟩
  · exact ⟨fun _ _ _ h => h, by simp, .inl ⟨rfl, rfl⟩⟩
  obtain ⟨hr, hg⟩ := hitem hi
  rcases h with ⟨hk₁, rest, ho, rfl⟩ | ⟨-, rfl, rfl⟩
  · have ht := hothers ho
    refine ⟨fun hc _ _ hd => ?_, ?_, .inr ⟨by simp, hk⟩⟩
    · rcases ht.start with ⟨rfl, rfl⟩ | ⟨hne, hk₂⟩
      · exact hr.trans (Cursor.Reads.trailing hk₁ hc hd)
      · obtain ⟨second, rest, rfl⟩ := List.exists_cons_of_ne_nil hne
        have := (hr.trans (Cursor.Reads.comma hk₁ hk₂)).trans (ht.reads hc hd)
        simpa [separatedTerminals_cons] using this
    · simpa [hg] using ht.groups
  · exact ⟨fun _ _ _ hd => hr.trans hd, by simpa using hg, .inr ⟨by simp, hk⟩⟩

section

variable {c c' : Cursor} {ex : BindingPower → Parser Expr} {ss : Parser (List Stmt)}
  {e left : Expr}

theorem ReadsExpr.lt {p q : BindingPower} (h : ReadsExpr p c e c') (hq : q ≤ p)
    (hu : q < .unary) : q < e.power := by
  rcases h.power with h | h
  · exact Nat.lt_of_le_of_lt hq h
  · exact BindingPower.lt_of_lt_of_le hu h

variable (hex : ∀ {p c e c'}, ex p c = .ok e c' → ReadsExpr p c e c')
  (hss : ∀ {c body c'}, ss c = .ok body c' → ReadsStmts .closeCurly c body c')

include hss in
theorem block_reads {b : Block} (h : block ss c = .ok b c') :
    c.Reads (.symbol .openCurly :: Stmt.listTerminals [] b.body ++ [.symbol .closeCurly]) c' ∧
      grouping.InStmts b.body := by
  obtain ⟨hk, body, c₁, hb, hk₁, rfl, rfl⟩ := block_ok.mp h
  have hr := hss hb
  exact ⟨((Cursor.Reads.symbol hk rfl).trans hr.reads).trans (Cursor.Reads.symbol hk₁ rfl),
    hr.groups⟩

include hex hss in
/-- What an expression begins with is no operator behind an operand. -/
theorem operand_reads (h : operand ex ss c = .ok e c') :
    c.Reads (e.terminals []) c' ∧ grouping.InExpr e ∧ .unary ≤ e.power ∧ Fits e c' := by
  rcases operand_ok.mp h with ⟨he, rfl⟩ | ⟨hk, he⟩ | ⟨hk, he⟩ | ⟨o, ho, he⟩
  · obtain ⟨ht, hp, hg, hk⟩ := Terminal.primary?_spec he
    rw [Token.terminal_kind] at hk
    refine ⟨?_, hg, hp ▸ BindingPower.le_primary _, .inl (hp ▸ BindingPower.le_primary _)⟩
    rw [ht]
    exact Cursor.Reads.token hk
  · obtain ⟨inner, c₁, hi, hk₁, rfl, rfl⟩ := grouped_ok.mp he
    have hr := hex hi
    refine ⟨?_, ⟨trivial, hr.groups⟩, BindingPower.le_primary _, .inl (BindingPower.le_primary _)⟩
    exact ((Cursor.Reads.symbol hk rfl).trans hr.reads).trans (Cursor.Reads.symbol hk₁ rfl)
  · obtain ⟨⟨body, s⟩, hb, rfl⟩ := runBlock_ok.mp he
    obtain ⟨hr, hg⟩ := block_reads hss hb
    exact ⟨(Cursor.Reads.symbol hk rfl).trans hr, ⟨trivial, hg⟩, BindingPower.le_primary _,
      .inl (BindingPower.le_primary _)⟩
  · obtain ⟨inner, hi, rfl⟩ := prefixed_ok.mp he
    obtain ⟨ht, hb⟩ := TokenKind.token_of_prefixOperator ho
    have hr := hex hi
    have hu : .unary ≤ inner.power := hr.power.elim BindingPower.le_of_lt id
    have hp : (Expr.unary o inner ⟨c.current.span.start, inner.span.stop⟩).power = .unary := by
      simp [Expr.power, hb]
    refine ⟨?_, ⟨?_, hr.groups⟩, hp ▸ Nat.le_refl _, .inl (hp ▸ hr.stop)⟩
    · rw [Expr.terminals, hb]
      exact (Cursor.Reads.symbol ht.symm o.isMark_token).trans hr.reads
    · simpa [grouping, Expr.Groups, hb] using hu

/-- Only a call binds tighter than what stands before it. -/
theorem Fits.le_power (hf : Fits left c) (hk : c.current.kind ≠ .openParen) :
    c.current.kind.bindingPower ≤ left.power := hf.resolve_right hk

theorem called_reads {args : Parser (List Expr)}
    (hargs : ∀ {c es c'}, args c = .ok es c' →
      ReadsList (Expr.terminals []) grouping.InExpr c es c')
    (hk : c.current.kind = .openParen) (h : called args left c = .ok e c') :
    Continues left c e c' := by
  obtain ⟨f, s, es, c₁, rfl, ha, hk₁, rfl, rfl⟩ := called_ok.mp h
  have hr := hargs ha
  refine ⟨⟨⟨_, ?_, (Cursor.Reads.symbol hk rfl).trans
    (hr.reads hk₁ (Cursor.Reads.symbol hk₁ rfl))⟩, trivial,
    NodeProperty.inExprs_iff.mpr hr.groups⟩, ?_, .inl ?_⟩
  · simp [Expr.terminals, parenthesized, Expr.terminalLists_eq]
  · simp [hk, Expr.power, TokenKind.bindingPower]
  · exact TokenKind.bindingPower_le_call _

include hex in
theorem ranged_reads (hg : grouping.InExpr left) (hf : Fits left c)
    (hk : c.current.kind = .dotDot ∨ c.current.kind = .untilWord ∨ c.current.kind = .downToWord)
    (h : ranged ex left c = .ok e c') : Continues left c e c' := by
  obtain ⟨stop, hs, rfl⟩ := ranged_ok.mp h
  have hr := hex hs
  have hp : c.current.kind.bindingPower = .range := by
    rcases hk with hk | hk | hk <;> rw [hk] <;> rfl
  have ht : c.current.kind =
      rangeToken (c.current.kind == .untilWord) (c.current.kind == .downToWord) := by
    rcases hk with hk | hk | hk <;> rw [hk] <;> rfl
  have hm : c.current.kind.isMark := by rcases hk with hk | hk | hk <;> rw [hk] <;> rfl
  have hl : .range ≤ left.power :=
    hp ▸ hf.le_power (by rcases hk with hk | hk | hk <;> rw [hk] <;> decide)
  refine ⟨⟨⟨_, ?_, (Cursor.Reads.symbol rfl hm).trans hr.reads⟩, ?_⟩, hp.symm, .inl hr.stop⟩
  · simp [Expr.terminals, Expr.stepTerminals, ← ht]
  · exact ⟨⟨hl, hr.lt (Nat.le_refl _) (by decide), by simp⟩, hg, hr.groups, trivial⟩

include hex in
/-- A step goes into the range it stands behind. -/
theorem rangeStep_reads (hg : grouping.InExpr left) (hk : c.current.kind = .stepWord)
    (h : rangeStep ex left c = .ok e c') : Continues left c e c' := by
  obtain ⟨a, b, x, d, s, step, rfl, hs, rfl⟩ := rangeStep_ok.mp h
  have hr := hex hs
  obtain ⟨⟨ha, hb, -⟩, hga, hgb, -⟩ := hg
  refine ⟨⟨⟨_, ?_, (Cursor.Reads.symbol hk rfl).trans hr.reads⟩, ?_⟩, ?_, .inl hr.stop⟩
  · simp [Expr.terminals, Expr.stepTerminals]
  · refine ⟨⟨ha, hb, ?_⟩, hga, hgb, hr.groups⟩
    rintro _ ⟨⟩
    exact hr.lt (Nat.le_refl _) (by decide)
  · rw [hk]
    rfl

theorem stepped_reads {s : Step} (hg : grouping.InExpr left) (hf : Fits left c)
    (hs : c.current.kind.postfixStep? = some s) (h : stepped s left c = .ok e c') :
    Continues left c e c' := by
  obtain ⟨rfl, rfl⟩ := stepped_ok.mp h
  obtain ⟨ht, hb⟩ := TokenKind.token_of_postfixStep hs
  have hp := TokenKind.bindingPower_of_postfixStep hs
  have he : (Expr.unary (.step s) left ⟨left.span.start, c.current.span.stop⟩).power =
      .postfixed := by simp [Expr.power, UnaryOperator.isBehind, hb]
  have hl : .postfixed ≤ left.power :=
    hp ▸ hf.le_power fun hk => by
      rw [hk] at hs
      cases hs
  refine ⟨⟨⟨[.symbol s.token], ?_, ?_⟩, ?_, hg⟩, by rw [he, hp], ?_⟩
  · simp [Expr.terminals, UnaryOperator.isBehind, hb, UnaryOperator.token]
  · exact Cursor.Reads.symbol ht.symm (UnaryOperator.isMark_token (.step s))
  · simpa [grouping, Expr.Groups, UnaryOperator.isBehind, hb] using hl
  · rw [Fits, he]
    exact TokenKind.bindingPower_le_postfixed _

include hex in
theorem combined_reads {o : BinaryOperator} (hg : grouping.InExpr left) (hf : Fits left c)
    (ho : c.current.kind.binaryOperator? = some o) (h : combined ex o left c = .ok e c') :
    Continues left c e c' := by
  obtain ⟨right, hr, rfl⟩ := combined_ok.mp h
  have ht := TokenKind.token_of_binaryOperator ho
  have hp := TokenKind.bindingPower_of_binaryOperator ho
  have hl : o.bindingPower ≤ left.power :=
    hp ▸ hf.le_power fun hk => by
      rw [hk] at ho
      cases ho
  have hr := hex hr
  refine ⟨⟨⟨_, rfl, (Cursor.Reads.symbol ht.symm o.isMark_token).trans hr.reads⟩, ?_⟩, hp.symm,
    .inl hr.stop⟩
  exact ⟨⟨hl, hr.lt (Nat.le_refl _) o.bindingPower_lt_unary⟩, hg, hr.groups⟩

include hex in
/-- The tree of an operator binds as tightly as its token. -/
theorem continuation_reads {args : Parser (List Expr)}
    (hargs : ∀ {c es c'}, args c = .ok es c' →
      ReadsList (Expr.terminals []) grouping.InExpr c es c')
    (hg : grouping.InExpr left) (hf : Fits left c) (h : continuation ex args left c = .ok e c') :
    Continues left c e c' := by
  rcases continuation_ok.mp h with ⟨hk, h⟩ | ⟨hk, h⟩ | ⟨hk, h⟩ | ⟨s, hs, h⟩ | ⟨o, ho, h⟩
  · exact called_reads hargs hk h
  · exact ranged_reads hex hg hf hk h
  · exact rangeStep_reads hex hg hk h
  · exact stepped_reads hg hf hs h
  · exact combined_reads hex hg hf ho h

end

section

variable {c c' : Cursor} {one : Parser Expr} {st : Parser Stmt} {ss : Parser (List Stmt)}
  {s : Stmt}
  (hone : ∀ {c e c'}, one c = .ok e c' → ReadsExpr .default c e c')
  (hst : ∀ {c s c'}, st c = .ok s c' → ReadsStmt c s c')
  (hss : ∀ {c body c'}, ss c = .ok body c' → ReadsStmts .closeCurly c body c')

include hone in
theorem condition_reads {e : Expr} (h : condition one c = .ok e c') :
    c.Reads (parenthesized (e.terminals [])) c' ∧ grouping.InExpr e := by
  obtain ⟨hk, c₁, he, hk₁, rfl⟩ := condition_ok.mp h
  have hr := hone he
  exact ⟨((Cursor.Reads.symbol hk rfl).trans hr.reads).trans (Cursor.Reads.symbol hk₁ rfl),
    hr.groups⟩

include hone in
theorem optional_reads {p : Prop} {e : Option Expr} (h : Optional p one c c e c') :
    c.Reads (Expr.optionTerminals [] e) c' ∧ grouping.InOption e := by
  rcases h with ⟨-, e, he, rfl⟩ | ⟨-, rfl, rfl⟩
  · exact ⟨(hone he).reads, (hone he).groups⟩
  · exact ⟨.refl _, trivial⟩

include hone in
theorem declaration_reads (hk : c.current.kind = .varWord ∨ c.current.kind = .valWord)
    (h : declaration one c = .ok s c') : ReadsStmt c s c' := by
  obtain ⟨hn, type, c₁, ha, value, hv, -, rfl⟩ := declaration_ok.mp h
  have hw : c.Reads [.symbol (if c.current.kind == .valWord then .valWord else .varWord)]
      c.next := by
    rcases hk with hk | hk <;> rw [hk] <;> exact Cursor.Reads.symbol hk rfl
  have ht : c.next.Reads (.name c.next.current.text :: type.elim [] DeclaredType.annotation)
      c₁ := by
    rcases annotation_ok.mp ha with ⟨hc, t, ht, rfl⟩ | ⟨-, rfl, rfl⟩
    · exact Cursor.Reads.typed hn hc ht
    · exact Cursor.Reads.name hn
  have hi : c₁.Reads (Expr.initialTerminals [] value) c' ∧ grouping.InOption value := by
    rcases hv with ⟨ha, e, he, rfl⟩ | ⟨-, rfl, rfl⟩
    · exact ⟨(Cursor.Reads.symbol ha rfl).trans (hone he).reads, (hone he).groups⟩
    · exact ⟨.refl _, trivial⟩
  exact ⟨by simpa [Stmt.terminals] using (hw.trans ht).trans hi.1, trivial, hi.2⟩

include hone in
theorem named_reads (hk : c.current.kind = .identifier) (h : named one c = .ok s c') :
    ReadsStmt c s c' := by
  have hn := Cursor.Reads.name hk
  have hp := Cursor.peek_one (c := c) (by simp [hk])
  rcases named_ok.mp h with ⟨o, ho, value, hv, rfl⟩ | ⟨-, step, hs, rfl, rfl⟩ | ⟨-, -, e, he, rfl⟩
  · rw [hp] at ho
    obtain ⟨ht, hs⟩ := TokenKind.token_of_assignOperator ho
    have := (hn.trans (Cursor.Reads.symbol ht.symm o.isMark_token)).trans (hone hv).reads
    refine ⟨?_, trivial, (hone hv).groups⟩
    cases o with
    | step step => cases hs
    | _ => exact this
  · rw [hp] at hs
    obtain ⟨ht, hb⟩ := TokenKind.token_of_postfixStep hs
    have := hn.trans (Cursor.Reads.symbol ht.symm (UnaryOperator.isMark_token (.step step)))
    exact ⟨by simpa [Stmt.terminals, hb] using this, trivial, trivial⟩
  · exact ⟨(hone he).reads, trivial, (hone he).groups⟩

include hone in
theorem steppedFirst_reads (step : Step) (hk : c.current.kind = step.token)
    (hb : step.isBefore) (h : steppedFirst one step c = .ok s c') : ReadsStmt c s c' := by
  have hm : step.token.isMark := UnaryOperator.isMark_token (.step step)
  rcases steppedFirst_ok.mp h with ⟨hn, rfl, rfl⟩ | ⟨-, e, he, rfl⟩
  · rw [Cursor.peek_one (by rw [hk]; cases step <;> simp [Step.token, Step.isIncrement])] at hn
    have := (Cursor.Reads.symbol hk hm).trans (Cursor.Reads.name hn)
    exact ⟨by simpa [Stmt.terminals, hb] using this, trivial, trivial⟩
  · exact ⟨(hone he).reads, trivial, (hone he).groups⟩

include hone in
theorem printing_reads (hk : c.current.kind = .printWord ∨ c.current.kind = .printlnWord)
    (h : printing one c = .ok s c') : ReadsStmt c s c' := by
  obtain ⟨ho, value, c₁, hv, hk₁, rfl, rfl⟩ := printing_ok.mp h
  have hw : c.Reads [.symbol (if c.current.kind == .printlnWord then .printlnWord else .printWord)]
      c.next := by
    rcases hk with hk | hk <;> rw [hk] <;> exact Cursor.Reads.symbol hk rfl
  obtain ⟨hr, hg⟩ := optional_reads hone hv
  have := ((hw.trans (Cursor.Reads.symbol ho rfl)).trans hr).trans (Cursor.Reads.symbol hk₁ rfl)
  exact ⟨by simpa [Stmt.terminals, parenthesized] using this, trivial, hg⟩

include hone hst in
theorem branching_reads (hk : c.current.kind = .ifWord) (h : branching one st c = .ok s c') :
    ReadsStmt c s c' := by
  obtain ⟨test, c₁, ht, a, c₂, ha, b, hb, rfl⟩ := branching_ok.mp h
  obtain ⟨hr, hg⟩ := condition_reads hone ht
  have he : c₂.Reads (Stmt.elseTerminals [] b) c' ∧ grouping.InElse b := by
    rcases hb with ⟨hw, b, hb, rfl⟩ | ⟨-, rfl, rfl⟩
    · have := (Cursor.Reads.symbol hw rfl).trans (hst hb).reads
      exact ⟨by simpa [Stmt.elseTerminals] using this, (hst hb).groups⟩
    · exact ⟨.refl _, trivial⟩
  have := (((Cursor.Reads.symbol hk rfl).trans hr).trans (hst ha).reads).trans he.1
  exact ⟨by simpa [Stmt.terminals] using this, trivial, hg, (hst ha).groups, he.2⟩

include hone hst in
theorem whileLoop_reads (hk : c.current.kind = .whileWord) (h : whileLoop one st c = .ok s c') :
    ReadsStmt c s c' := by
  obtain ⟨test, c₁, ht, body, hb, rfl⟩ := whileLoop_ok.mp h
  obtain ⟨hr, hg⟩ := condition_reads hone ht
  have := ((Cursor.Reads.symbol hk rfl).trans hr).trans (hst hb).reads
  exact ⟨by simpa [Stmt.terminals] using this, trivial, hg, (hst hb).groups⟩

include hone hst in
theorem doWhile_reads (hk : c.current.kind = .doWord) (h : doWhile one st c = .ok s c') :
    ReadsStmt c s c' := by
  obtain ⟨body, c₁, hb, hw, test, ht, rfl⟩ := doWhile_ok.mp h
  obtain ⟨hr, hg⟩ := condition_reads hone ht
  have := (((Cursor.Reads.symbol hk rfl).trans (hst hb).reads).trans
    (Cursor.Reads.symbol hw rfl)).trans hr
  exact ⟨by simpa [Stmt.terminals] using this, trivial, (hst hb).groups, hg⟩

include hone hst in
theorem forLoop_reads (hk : c.current.kind = .forWord) (h : forLoop one st c = .ok s c') :
    ReadsStmt c s c' := by
  obtain ⟨ho, hn, hi, range, c₁, hr, hk₁, -, body, hb, rfl⟩ := forLoop_ok.mp h
  have hr := hone hr
  have := ((((((Cursor.Reads.symbol hk rfl).trans (Cursor.Reads.symbol ho rfl)).trans
    (Cursor.Reads.name hn)).trans (Cursor.Reads.symbol hi rfl)).trans hr.reads).trans
    (Cursor.Reads.symbol hk₁ rfl)).trans (hst hb).reads
  exact ⟨by simpa [Stmt.terminals, parenthesized] using this, trivial, hr.groups, (hst hb).groups⟩

theorem parameter_reads {p : Parameter} (h : parameter c = .ok p c') :
    c.Reads p.terminals c' := by
  obtain ⟨hn, hc, t, ht, rfl⟩ := parameter_ok.mp h
  exact Cursor.Reads.typed hn hc ht

include hss in
theorem function_reads {ps : Parser (List Parameter)}
    (hps : ∀ {c as c'}, ps c = .ok as c' →
      ReadsList Parameter.terminals (fun _ => True) c as c')
    (hk : c.current.kind = .funWord) (h : function ps ss c = .ok s c') : ReadsStmt c s c' := by
  obtain ⟨hn, ho, as, c₁, ha, hk₁, type, c₂, ht, ⟨body, u⟩, hb, rfl⟩ := function_ok.mp h
  obtain ⟨hr, hg⟩ := block_reads hss hb
  have hl : c₁.Reads (.symbol .closeParen :: (type.getD .unit).result) c₂ :=
    Cursor.Reads.result hk₁ ht
  have := ((((Cursor.Reads.symbol hk rfl).trans (Cursor.Reads.name hn)).trans
    (Cursor.Reads.symbol ho rfl)).trans ((hps ha).reads hk₁ hl)).trans hr
  exact ⟨by simpa [Stmt.terminals, parenthesized] using this, trivial, hg⟩

include hone in
theorem returning_reads (hk : c.current.kind = .returnWord) (h : returning one c = .ok s c') :
    ReadsStmt c s c' := by
  obtain ⟨value, hv, rfl⟩ := returning_ok.mp h
  obtain ⟨hr, hg⟩ := optional_reads hone hv
  exact ⟨(Cursor.Reads.symbol hk rfl).trans hr, trivial, hg⟩

include hone hst hss in
theorem anyStatement_reads {ps : Parser (List Parameter)}
    (hps : ∀ {c as c'}, ps c = .ok as c' →
      ReadsList Parameter.terminals (fun _ => True) c as c')
    (h : anyStatement one st ss ps c = .ok s c') : ReadsStmt c s c' := by
  unfold anyStatement at h
  rw [current_bind] at h
  have hexpr : (one >>= fun e => pure (.expression e)) c = .ok s c' → ReadsStmt c s c' := by
    intro h
    simp only [bind_ok, pure_ok] at h
    obtain ⟨e, _, he, rfl, rfl⟩ := h
    exact ⟨(hone he).reads, trivial, (hone he).groups⟩
  cases hk : c.current.kind with rw [hk] at h
  | varWord => exact declaration_reads hone (.inl hk) h
  | valWord => exact declaration_reads hone (.inr hk) h
  | funWord => exact function_reads hss hps hk h
  | ifWord => exact branching_reads hone hst hk h
  | whileWord => exact whileLoop_reads hone hst hk h
  | doWord => exact doWhile_reads hone hst hk h
  | forWord => exact forLoop_reads hone hst hk h
  | returnWord => exact returning_reads hone hk h
  | breakWord =>
    simp only [advance_bind, pure_ok] at h
    obtain ⟨rfl, rfl⟩ := h
    exact ⟨Cursor.Reads.symbol hk rfl, trivial⟩
  | continueWord =>
    simp only [advance_bind, pure_ok] at h
    obtain ⟨rfl, rfl⟩ := h
    exact ⟨Cursor.Reads.symbol hk rfl, trivial⟩
  | printWord => exact printing_reads hone (.inl hk) h
  | printlnWord => exact printing_reads hone (.inr hk) h
  | openCurly =>
    simp only [bind_ok, pure_ok] at h
    obtain ⟨⟨body, u⟩, _, hb, rfl, rfl⟩ := h
    obtain ⟨hr, hg⟩ := block_reads hss hb
    exact ⟨hr, trivial, hg⟩
  | identifier => exact named_reads hone hk h
  | plusPlus => exact steppedFirst_reads hone .preIncrement hk rfl h
  | minusMinus => exact steppedFirst_reads hone .preDecrement hk rfl h
  | _ => exact hexpr h

end

/-! ## The knot -/

theorem semicolons_reads {n : Nat} {u : Unit} {c c' : Cursor} (h : semicolons n c = .ok u c') :
    c.Reads [] c' := by
  induction n generalizing c with
  | zero => exact absurd h outOfFuel_ok
  | succ n ih =>
    rcases semicolons_ok.mp h with ⟨hk, h⟩ | ⟨-, rfl⟩
    · exact (Cursor.Reads.semicolon hk).trans (ih h)
    · exact .refl _

theorem parameters_reads {n : Nat} {c c' : Cursor} {as : List Parameter}
    (h : parameters n c = .ok as c') :
    ReadsList Parameter.terminals (fun _ => True) c as c' := by
  induction n generalizing c c' as with
  | zero => exact absurd h outOfFuel_ok
  | succ n ih => exact separated_reads (fun h => ⟨parameter_reads h, trivial⟩) ih h

/-- What the rules of the knot read on `n` units of fuel. -/
structure Reading (n : Nat) : Prop where
  expression : ∀ {p c e c'}, expression n p c = .ok e c' → ReadsExpr p c e c'
  extended : ∀ {p left c e c'}, extended n p left c = .ok e c' → grouping.InExpr left →
    (p < left.power ∨ .unary ≤ left.power) → Fits left c →
    Extends left c e c' ∧ (p < e.power ∨ .unary ≤ e.power) ∧
      c'.current.kind.bindingPower ≤ p
  arguments : ∀ {c es c'}, arguments n c = .ok es c' →
    ReadsList (Expr.terminals []) grouping.InExpr c es c'
  statement : ∀ {c s c'}, statement n c = .ok s c' → ReadsStmt c s c'
  statements : ∀ {close c body c'}, statements n close c = .ok body c' →
    ReadsStmts close c body c'

theorem reading (n : Nat) : Reading n := by
  induction n with
  | zero =>
    constructor
    all_goals intros; exact absurd ‹_› outOfFuel_ok
  | succ n ih =>
    constructor
    · intro p c e c' h
      obtain ⟨left, c₁, ho, h⟩ := expression_ok.mp h
      obtain ⟨hr, hg, hp, hf⟩ := operand_reads ih.expression ih.statements ho
      obtain ⟨⟨⟨ts, ht, hr'⟩, hg'⟩, hp', hs⟩ := ih.extended h hg (.inr hp) hf
      exact ⟨ht ▸ hr.trans hr', hg', hp', hs⟩
    · intro p left c e c' h hg hp hf
      rcases extended_ok.mp h with ⟨hlt, wider, c₁, hc, h⟩ | ⟨hlt, rfl, rfl⟩
      · obtain ⟨⟨⟨ts, ht, hr⟩, hg₁⟩, hp₁, hf₁⟩ :=
          continuation_reads ih.expression ih.arguments hg hf hc
        obtain ⟨⟨⟨us, hu, hr'⟩, hg'⟩, hp', hs⟩ := ih.extended h hg₁ (.inl (hp₁ ▸ hlt)) hf₁
        exact ⟨⟨⟨ts ++ us, by rw [hu, ht, List.append_assoc], hr.trans hr'⟩, hg'⟩, hp', hs⟩
      · exact ⟨⟨⟨[], by simp, .refl _⟩, hg⟩, hp, BindingPower.not_lt.mp hlt⟩
    · intro c es c' h
      exact separated_reads (fun h => ⟨(ih.expression h).reads, (ih.expression h).groups⟩)
        ih.arguments h
    · intro c s c' h
      obtain ⟨c₁, hs, hc⟩ := statement_ok.mp h
      have hr := anyStatement_reads ih.expression ih.statement ih.statements parameters_reads hs
      exact ⟨by simpa using hr.reads.trans (semicolons_reads hc), hr.groups⟩
    · intro close c body c' h
      rcases statements_ok.mp h with ⟨hk, rfl, rfl⟩ | ⟨-, hk, h⟩ | ⟨-, -, first, c₁, hs, rest, h', rfl⟩
      · exact ⟨.refl _, trivial, hk⟩
      · have hr := ih.statements h
        exact ⟨(Cursor.Reads.semicolon hk).trans hr.reads, hr.groups, hr.stop⟩
      · have hf := ih.statement hs
        have hr := ih.statements h'
        exact ⟨by simpa [Stmt.listTerminals] using hf.reads.trans hr.reads,
          ⟨hf.groups, hr.groups⟩, hr.stop⟩

end Grammar

namespace Cursor

theorem takeWhile_concat_of_neg {α : Type} {p : α → Bool} {a : α} {as : List α} (h : ¬p a) :
    (as ++ [a]).takeWhile p = as.takeWhile p := by
  induction as with
  | nil => simp [h]
  | cons b bs ih => simp [List.takeWhile_cons, ih]

/-- A cursor on tokens stands before those of them that end no file. -/
theorem pending_ofTokens (tokens : List Token) (file : String) :
    (ofTokens tokens file).pending.takeWhile (fun t => t.kind != .eof) =
      tokens.takeWhile fun t => t.kind != .eof := by
  unfold ofTokens
  cases h : tokens.getLast? with
  | none => rw [List.getLast?_eq_none_iff.mp h]
  | some t =>
    obtain ⟨ts, rfl⟩ := List.getLast?_eq_some_iff.mp h
    by_cases hk : t.kind = .eof
    · simp only [hk, if_true, List.dropLast_concat]
      exact (takeWhile_concat_of_neg (by simp [hk])).symm
    · simp [hk]

/-- Behind the last token, or before one that ends the file. -/
theorem head_of_eof {c : Cursor} (h : c.current.kind = .eof) :
    ∀ t, c.pending.head? = some t → t.kind = .eof := by
  intro t ht
  cases hp : c.pending with
  | nil => simp [hp] at ht
  | cons u us => simp_all [current, peek]

end Cursor

/-- A program is a derivation of the tokens before the first end of the file: read
off, it gives these tokens without semicolons, trailing commas and the result type
`Unit`, and its operators group as their binding powers demand. -/
theorem Program.ofTokens_derives {tokens : List Token} {file : String} {p : Program}
    (h : Program.ofTokens tokens file = .ok p) :
    essentials ((tokens.takeWhile fun t => t.kind != .eof).map Token.terminal) = p.terminals [] ∧
      grouping.InProgram p := by
  unfold Program.ofTokens at h
  split at h
  case h_2 => cases h
  case h_1 body c hs =>
    cases h
    have hr := (Grammar.reading _).statements hs
    refine ⟨?_, hr.groups⟩
    obtain ⟨ts, ht, hte⟩ := hr.reads.taken
    have he : c.current.kind = .eof := by simpa using hr.stop
    have hw : c.pending.takeWhile (fun t => t.kind != .eof) = [] := by
      cases hp : c.pending with
      | nil => rfl
      | cons t ts => simp [Cursor.head_of_eof he t (by rw [hp, List.head?_cons])]
    have htw : tokens.takeWhile (fun t => t.kind != .eof) = ts := by
      rw [← Cursor.pending_ofTokens tokens file, ht, List.takeWhile_append_of_pos, hw,
        List.append_nil]
      simpa using hte
    have hskim := hr.reads.skim (by simp [he])
    rw [Cursor.ahead, ht, List.map_append, essentials_append] at hskim
    · rw [htw]
      exact List.append_cancel_right hskim
    · rw [List.head?_map]
      rintro u hu
      obtain ⟨t, ht, rfl⟩ := Option.map_eq_some_iff.mp hu
      rw [Token.terminal_kind, Cursor.head_of_eof he t ht]

/-- The tokens of `a - f(b,) * c;`. -/
theorem Program.ofTokens_derives_of_trailing_comma :
    ∃ p, Program.ofTokens
        [⟨.identifier, "a", default⟩, ⟨.dash, "-", default⟩, ⟨.identifier, "f", default⟩,
          ⟨.openParen, "(", default⟩, ⟨.identifier, "b", default⟩, ⟨.comma, ",", default⟩,
          ⟨.closeParen, ")", default⟩, ⟨.star, "*", default⟩, ⟨.identifier, "c", default⟩,
          ⟨.semicolon, ";", default⟩, ⟨.eof, "EOF", default⟩] "" = .ok p ∧
      p.terminals [] = [.name "a", .symbol .dash, .name "f", .symbol .openParen, .name "b",
        .symbol .closeParen, .symbol .star, .name "c"] ∧
      grouping.InProgram p := by
  obtain ⟨p, hp⟩ : ∃ p, Program.ofTokens
        [⟨.identifier, "a", default⟩, ⟨.dash, "-", default⟩, ⟨.identifier, "f", default⟩,
          ⟨.openParen, "(", default⟩, ⟨.identifier, "b", default⟩, ⟨.comma, ",", default⟩,
          ⟨.closeParen, ")", default⟩, ⟨.star, "*", default⟩, ⟨.identifier, "c", default⟩,
          ⟨.semicolon, ";", default⟩, ⟨.eof, "EOF", default⟩] "" = .ok p := ⟨_, rfl⟩
  obtain ⟨ht, hg⟩ := Program.ofTokens_derives hp
  exact ⟨p, hp, ht.symm, hg⟩

end ScriptLang
