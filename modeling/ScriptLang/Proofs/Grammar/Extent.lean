import ScriptLang.Proofs.Grammar.Rereading
import ScriptLang.Proofs.Grammar.Standing
import ScriptLang.Proofs.Tree.Nodes

/-!
# Trees stand where their tokens do

An expression takes the place of the tokens it was read from, and these give it again. The
trees it is made of stand inside, one behind the other, and so do those of a statement. A rule
takes the start of a tree from its first token or from the operand it extends, and the end from
the token consumed last or from the part it read last; both come to the same.
-/

namespace ScriptLang

/-- The expression starts where the first of the tokens does and ends where the last one does. -/
def Expr.Covers (e : Expr) (ts : List Token) : Prop :=
  ∃ first last, ts.head? = some first ∧ ts.getLast? = some last ∧
    e.span = ⟨first.span.start, last.span.stop⟩

/-- The parts of a node are inside it, and some of the tokens, one behind the other, cover an
expression and are read as it again. -/
def extent (tokens : List Token) : NodeProperty where
  expr e := e.Nests ∧ ∃ ts, ts <:+: tokens ∧ e.Covers ts ∧ Grammar.Rereads ts e
  stmt := Stmt.Nests

/-- A literal or a name has the span of its token and no parts. -/
theorem Terminal.simple_of_primary? {t : Terminal} {s : Span} {e : Expr} (p : NodeProperty)
    (h : some e = t.primary? s) :
    e.span = s ∧ e.parts = [] ∧ e.block? = none ∧ (p.expr e → p.InExpr e) := by
  cases t with
  | symbol k =>
    cases k <;> simp only [primary?, reduceCtorEq, Option.some.injEq] at h <;> subst h <;>
      exact ⟨rfl, rfl, rfl, id⟩
  | _ =>
    simp only [primary?, Option.some.injEq] at h
    subst h
    exact ⟨rfl, rfl, rfl, id⟩

namespace Grammar

open ScriptLang.Parser

variable {tokens : List Token} {c₀ c c₁ c' : Cursor} {e left : Expr} {s : Stmt} {q : Prop}

/-- Between the cursors this expression was read. -/
structure FoundExpr (tokens : List Token) (c : Cursor) (e : Expr) (c' : Cursor) : Prop where
  upto : c.Upto 1 c'
  span : e.span = ⟨c.position, c'.lastEnd⟩
  nodes : (extent tokens).InExpr e

/-- The same but for what is only known when the tokens of the whole expression are. -/
structure MadeExpr (tokens : List Token) (c : Cursor) (e : Expr) (c' : Cursor) : Prop where
  upto : c.Upto 1 c'
  span : e.span = ⟨c.position, c'.lastEnd⟩
  parts : Ascends c.position.offset e.parts c'.lastEnd.offset
  block : ∀ b ∈ e.block?, b.Nests
  nodes : (extent tokens).expr e → (extent tokens).InExpr e

theorem FoundExpr.stop (h : FoundExpr tokens c e c') : e.span.stop = c'.lastEnd :=
  congrArg Span.stop h.span

theorem FoundExpr.leading (h : FoundExpr tokens c e c') (hc : c.Stands tokens) :
    Leading c [e.span] (FoundExpr tokens c e c') c' := by
  refine ⟨h.upto.weaken (Nat.zero_le 1), ?_, h⟩
  rw [h.span]
  exact ⟨hc.le_position, hc.lt h.upto, Nat.le_refl _⟩

theorem MadeExpr.found (h : MadeExpr tokens c e c') (hc : c.Stands tokens)
    (hr : Reaches c e c') : FoundExpr tokens c e c' := by
  obtain ⟨ts, hlength, hts⟩ := h.upto
  refine ⟨h.upto, h.span, h.nodes ⟨⟨?_, ?_, h.block⟩, ts, ?_, ?_, hr.rereads hts⟩⟩
  · rw [h.span]
    exact hc.lt h.upto
  · rw [Span.Holds, h.span]
    exact h.parts
  · have hamong : ts <:+: c.pending := hts.pending ▸ List.infix_append' [] ts c'.pending
    exact hamong.trans hc.suffix.isInfix
  · obtain ⟨first, last, hfirst, hlast, hstart, hstop⟩ := hts.ends (List.length_pos_iff.mp hlength)
    exact ⟨first, last, hfirst, hlast, by rw [h.span, hstart, hstop]⟩

/-- An expression starts with a token of its own, and its parts are behind this. -/
theorem made_expr (hkind : c.current.kind ≠ .eof) (h : Leads tokens c.next e.parts q c')
    (hspan : q → e.span = ⟨c.position, c'.lastEnd⟩) (hblock : q → ∀ b ∈ e.block?, b.Nests)
    (hnodes : q → (extent tokens).expr e → (extent tokens).InExpr e) (hc : c.Stands tokens) :
    MadeExpr tokens c e c' := by
  have hnext := Cursor.Upto.next_of_kind hkind
  obtain ⟨hupto, hparts, hq⟩ := h (hc.upto hnext)
  exact ⟨hnext.trans hupto, hspan hq, hparts.widen (Nat.le_of_lt (hc.lt hnext)) (Nat.le_refl _),
    hblock hq, hnodes hq⟩

/-- So does a statement, and it ends where the cursor comes to. -/
theorem leads_stmt (hkind : c.current.kind ≠ .eof) (h : Leads tokens c.next s.parts q c')
    (hspan : s.span = ⟨c.position, c'.lastEnd⟩) (hblock : q → ∀ b ∈ s.block?, b.Nests)
    (hnodes : q → s.Nests → (extent tokens).InStmt s) :
    Leads tokens c [s.span] ((extent tokens).InStmt s) c' := by
  intro hc
  have hnext := Cursor.Upto.next_of_kind hkind
  obtain ⟨hupto, hparts, hq⟩ := h (hc.upto hnext)
  have hpos := hc.lt (hnext.trans hupto)
  have hnests : s.Nests := by
    refine ⟨?_, ?_, hblock hq⟩
    · rw [hspan]
      exact hpos
    · rw [Span.Holds, hspan]
      exact hparts.widen (Nat.le_of_lt (hc.lt hnext)) (Nat.le_refl _)
  refine ⟨(hnext.trans hupto).weaken (Nat.zero_le _), ?_, hnodes hq hnests⟩
  rw [hspan]
  exact ⟨hc.le_position, hpos, Nat.le_refl _⟩

/-! ## Expressions -/

section

variable {ex : BindingPower → Parser Expr} {ss : Parser (List Stmt)} {args : Parser (List Expr)}
  (hex : ∀ {p c e c'}, ex p c = .ok e c' → Leads tokens c [e.span] (FoundExpr tokens c e c') c')
  (hss : ∀ {c body c'}, ss c = .ok body c' →
    Leads tokens c (body.map Stmt.span) ((extent tokens).InStmts body) c')
  (hargs : ∀ {c es c'}, args c = .ok es c' →
    Leads tokens c (es.map Expr.span) ((extent tokens).InExprs es) c')

include hss in
theorem block_leads {b : Block} (h : block ss c = .ok b c') :
    b.span = ⟨c.position, c'.lastEnd⟩ ∧
      Leads tokens c [b.span] (b.Nests ∧ (extent tokens).InStmts b.body) c' := by
  obtain ⟨hk, body, c₁, hb, -, rfl, rfl⟩ := block_ok.mp h
  refine ⟨rfl, fun hc => ?_⟩
  have hnext := Cursor.Upto.next_of_kind (c := c) (hk ▸ nofun)
  obtain ⟨hupto, hbody, hin⟩ := ((hss hb).before (.next _)) (hc.upto hnext)
  have hpos := hc.lt (hnext.trans hupto)
  exact ⟨(hnext.trans hupto).weaken (Nat.zero_le _), ⟨hc.le_position, hpos, Nat.le_refl _⟩,
    hbody.widen (Nat.le_of_lt (hc.lt hnext)) (Nat.le_refl _), hin⟩

include hex hss in
theorem operand_made (h : operand ex ss c = .ok e c') (hc : c.Stands tokens) :
    MadeExpr tokens c e c' := by
  rcases operand_ok.mp h with ⟨he, rfl⟩ | ⟨hk, he⟩ | ⟨hk, he⟩ | ⟨o, ho, he⟩
  · have hkind := Terminal.kind_of_primary? he
    obtain ⟨hspan, hparts, hblock, hnodes⟩ := Terminal.simple_of_primary? (extent tokens) he
    have hleads : Leads tokens c.next e.parts True c.next := hparts ▸ Leads.refl _
    refine made_expr hkind hleads (fun _ => ?_) (fun _ => ?_) (fun _ => hnodes) hc
    · rw [hspan, c.lastEnd_next hkind]
      rfl
    · rw [hblock]
      exact nofun
  · obtain ⟨inner, c₁, hi, -, rfl, rfl⟩ := grouped_ok.mp he
    exact made_expr (hk ▸ nofun) ((hex hi).before (.next _)) (fun _ => rfl) (fun _ => nofun)
      (fun hq he => ⟨he, hq.nodes⟩) hc
  · obtain ⟨⟨body, span⟩, hb, rfl⟩ := runBlock_ok.mp he
    exact made_expr (hk ▸ nofun) (block_leads hss hb).2 (fun _ => rfl)
      (fun hq b hb => Option.mem_some_iff.mp hb ▸ hq.1) (fun hq he => ⟨he, hq.2⟩) hc
  · obtain ⟨inner, hi, rfl⟩ := prefixed_ok.mp he
    refine made_expr (fun hk => ?_) (hex hi) (fun hq => ?_) (fun _ => nofun)
      (fun hq he => ⟨he, hq.nodes⟩) hc
    · rw [hk] at ho
      cases ho
    · exact congrArg (Span.mk c.position) hq.stop

section

variable (hl : FoundExpr tokens c₀ left c) (hc₀ : c₀.Stands tokens)

include hl hc₀

/-- What extends an expression has it as its first part. -/
theorem made_wider {ps : List Span}
    (h : Leads tokens c.next ps q c') (hparts : e.parts = left.span :: ps)
    (hspan : q → e.span = ⟨left.span.start, c'.lastEnd⟩) (hblock : e.block? = none)
    (hnodes : q → (extent tokens).expr e → (extent tokens).InExpr e) :
    MadeExpr tokens c₀ e c' := by
  obtain ⟨hupto, hleft, -⟩ := hl.leading hc₀
  have hc := hc₀.upto hl.upto
  obtain ⟨hupto', hps, hq⟩ := ((Leads.next c).behind h) hc
  refine ⟨hl.upto.trans hupto', by rw [hspan hq, hl.span], ?_, by rw [hblock]; exact nofun,
    hnodes hq⟩
  rw [hparts, hl.span]
  exact ⟨Nat.le_refl _, hc₀.lt hl.upto, hps⟩

include hex in
theorem ranged_made (h : ranged ex left c = .ok e c') :
    MadeExpr tokens c₀ e c' := by
  obtain ⟨stop, hs, rfl⟩ := ranged_ok.mp h
  exact made_wider hl hc₀ (hex hs) rfl
    (fun hq => congrArg (Span.mk left.span.start) hq.stop) rfl
    fun hq he => ⟨he, hl.nodes, hq.nodes, trivial⟩

include hex in
theorem combined_made {o : BinaryOperator} (h : combined ex o left c = .ok e c') :
    MadeExpr tokens c₀ e c' := by
  obtain ⟨right, hr, rfl⟩ := combined_ok.mp h
  exact made_wider hl hc₀ (hex hr) rfl
    (fun hq => congrArg (Span.mk left.span.start) hq.stop) rfl
    fun hq he => ⟨he, hl.nodes, hq.nodes⟩

theorem stepped_made {step : Step} (hk : c.current.kind ≠ .eof)
    (h : stepped step left c = .ok e c') : MadeExpr tokens c₀ e c' := by
  obtain ⟨rfl, rfl⟩ := stepped_ok.mp h
  exact made_wider hl hc₀ (.refl _) rfl
    (fun _ => congrArg (Span.mk left.span.start) (c.lastEnd_next hk).symm) rfl
    fun _ he => ⟨he, hl.nodes⟩

include hex in
/-- The range that a step is given to is no part of the one that has the step, but its ends are. -/
theorem rangeStep_made (h : rangeStep ex left c = .ok e c') : MadeExpr tokens c₀ e c' := by
  obtain ⟨a, b, x, d, s, step, rfl, hs, rfl⟩ := rangeStep_ok.mp h
  have hc := hc₀.upto hl.upto
  obtain ⟨hupto, hstep, hq⟩ := ((Leads.next c).behind (hex hs)) hc
  obtain ⟨⟨hnests, -⟩, ha, hb, -⟩ := hl.nodes
  have hspan : s = ⟨c₀.position, c.lastEnd⟩ := hl.span
  have hends : Ascends c₀.position.offset [a.span, b.span] c.lastEnd.offset := by
    have hholds := hnests.parts
    rw [Span.Holds, hl.span] at hholds
    exact hholds
  refine ⟨hl.upto.trans hupto, ?_, hends.append hstep, nofun, fun he => ⟨he, ha, hb, hq.nodes⟩⟩
  change (⟨s.start, step.span.stop⟩ : Span) = _
  rw [hspan, hq.span]

include hargs in
/-- The name that is called is no part of the call. -/
theorem called_made (h : called args left c = .ok e c') :
    MadeExpr tokens c₀ e c' := by
  obtain ⟨f, s, es, c₁, rfl, ha, -, rfl, rfl⟩ := called_ok.mp h
  have hc := hc₀.upto hl.upto
  obtain ⟨hupto, hes, hq⟩ := ((Leads.next c).behind ((hargs ha).before (.next _))) hc
  have hspan : s = ⟨c₀.position, c.lastEnd⟩ := hl.span
  refine ⟨hl.upto.trans hupto, ?_, ?_, nofun, fun he => ⟨he, hq⟩⟩
  · rw [hspan]
    rfl
  · exact hes.widen (Nat.le_of_lt (hc₀.lt hl.upto)) (Nat.le_refl _)

include hex hargs in
theorem continuation_made (hk : c.current.kind ≠ .eof)
    (h : continuation ex args left c = .ok e c') : MadeExpr tokens c₀ e c' := by
  rcases continuation_ok.mp h with ⟨-, he⟩ | ⟨-, he⟩ | ⟨-, he⟩ | ⟨s, -, he⟩ | ⟨o, -, he⟩
  · exact called_made hargs hl hc₀ he
  · exact ranged_made hex hl hc₀ he
  · exact rangeStep_made hex hl hc₀ he
  · exact stepped_made hl hc₀ hk he
  · exact combined_made hex hl hc₀ he

end

end

/-! ## Statements -/

section

variable {one : Parser Expr} {st : Parser Stmt} {ss : Parser (List Stmt)}
  {ps : Parser (List Parameter)}
  (hone : ∀ {c e c'}, one c = .ok e c' → Leads tokens c [e.span] (FoundExpr tokens c e c') c')
  (hst : ∀ {c s c'}, st c = .ok s c' → Leads tokens c [s.span] ((extent tokens).InStmt s) c')
  (hss : ∀ {c body c'}, ss c = .ok body c' →
    Leads tokens c (body.map Stmt.span) ((extent tokens).InStmts body) c')
  (hps : ∀ {c parameters c'}, ps c = .ok parameters c' → Leads tokens c [] True c')

theorem annotation_leads {type : Option DeclaredType} (h : annotation c = .ok type c') :
    Leads tokens c [] True c' := by
  have hcarries := carries_annotation (w := ⟨id, []⟩)
  exact .of_upto (hcarries.upto h)

include hone in
theorem optional_leads {p : Prop} {v : Option Expr} (h : Optional p one c₁ c v c')
    (hc : Leads tokens c [] True c₁) :
    Leads tokens c (v.map Expr.span).toList ((extent tokens).InOption v) c' := by
  rcases h with ⟨-, e, he, rfl⟩ | ⟨-, rfl, rfl⟩
  · exact (hc.behind (hone he)).known_mono FoundExpr.nodes
  · exact .refl _

include hone in
theorem condition_leads (h : condition one c = .ok e c') :
    Leads tokens c [e.span] ((extent tokens).InExpr e) c' := by
  obtain ⟨-, c₁, he, -, rfl⟩ := condition_ok.mp h
  exact (((Leads.next c).behind (hone he)).before (.next c₁)).known_mono FoundExpr.nodes

include hone in
/-- An expression is a statement that is its own only part. -/
theorem expression_leads (h : one c = .ok e c') :
    Leads tokens c [(Stmt.expression e).span] ((extent tokens).InStmt (.expression e)) c' :=
  (hone h).known_mono fun he =>
    have hpos := (NodeProperty.expr_of_inExpr he.nodes).1.pos
    ⟨⟨hpos, ⟨Nat.le_refl _, hpos, Nat.le_refl _⟩, nofun⟩, he.nodes⟩

variable (hk : c.current.kind ≠ .eof)

include hone hk

theorem declaration_leads (h : declaration one c = .ok s c') :
    Leads tokens c [s.span] ((extent tokens).InStmt s) c' := by
  obtain ⟨-, type, c₁, ht, value, hv, -, rfl⟩ := declaration_ok.mp h
  have hfront : Leads tokens c.next [] True c₁ := (Leads.next _).behind (annotation_leads ht)
  exact leads_stmt hk (hfront.behind (optional_leads hone hv (.next _))) rfl (fun _ => nofun)
    fun hq hs => ⟨hs, hq⟩

theorem named_leads (h : named one c = .ok s c') :
    Leads tokens c [s.span] ((extent tokens).InStmt s) c' := by
  rcases named_ok.mp h with ⟨o, -, value, hv, rfl⟩ | ⟨-, step, -, rfl, rfl⟩ | ⟨-, -, value, hv, rfl⟩
  · exact leads_stmt hk ((Leads.next _).behind (hone hv)) rfl (fun _ => nofun)
      fun hq hs => ⟨hs, hq.nodes⟩
  · exact leads_stmt hk (.next _) rfl (fun _ => nofun) fun hq hs => ⟨hs, hq⟩
  · exact expression_leads hone hv

theorem steppedFirst_leads {step : Step} (h : steppedFirst one step c = .ok s c') :
    Leads tokens c [s.span] ((extent tokens).InStmt s) c' := by
  rcases steppedFirst_ok.mp h with ⟨-, rfl, rfl⟩ | ⟨-, value, hv, rfl⟩
  · exact leads_stmt hk (.next _) rfl (fun _ => nofun) fun hq hs => ⟨hs, hq⟩
  · exact expression_leads hone hv

theorem printing_leads (h : printing one c = .ok s c') :
    Leads tokens c [s.span] ((extent tokens).InStmt s) c' := by
  obtain ⟨-, value, c₁, hv, -, rfl, rfl⟩ := printing_ok.mp h
  have hvalue := (optional_leads hone hv (.refl _)).before (.next c₁)
  exact leads_stmt hk ((Leads.next _).behind hvalue) rfl (fun _ => nofun) fun hq hs => ⟨hs, hq⟩

theorem returning_leads (h : returning one c = .ok s c') :
    Leads tokens c [s.span] ((extent tokens).InStmt s) c' := by
  obtain ⟨value, hv, rfl⟩ := returning_ok.mp h
  exact leads_stmt hk (optional_leads hone hv (.refl _)) rfl (fun _ => nofun)
    fun hq hs => ⟨hs, hq⟩

include hst

theorem branching_leads (h : branching one st c = .ok s c') :
    Leads tokens c [s.span] ((extent tokens).InStmt s) c' := by
  obtain ⟨test, c₁, ht, a, c₂, ha, b, hb, rfl⟩ := branching_ok.mp h
  have helse : Leads tokens c₂ (b.map Stmt.span).toList ((extent tokens).InElse b) c' := by
    rcases hb with ⟨-, b, hb, rfl⟩ | ⟨-, rfl, rfl⟩
    · exact (Leads.next c₂).behind (hst hb)
    · exact .refl _
  exact leads_stmt hk ((condition_leads hone ht).trans ((hst ha).trans helse)) rfl
    (fun _ => nofun) fun hq hs => ⟨hs, hq⟩

theorem whileLoop_leads (h : whileLoop one st c = .ok s c') :
    Leads tokens c [s.span] ((extent tokens).InStmt s) c' := by
  obtain ⟨test, c₁, ht, body, hb, rfl⟩ := whileLoop_ok.mp h
  exact leads_stmt hk ((condition_leads hone ht).trans (hst hb)) rfl (fun _ => nofun)
    fun hq hs => ⟨hs, hq⟩

theorem doWhile_leads (h : doWhile one st c = .ok s c') :
    Leads tokens c [s.span] ((extent tokens).InStmt s) c' := by
  obtain ⟨body, c₁, hb, -, test, ht, rfl⟩ := doWhile_ok.mp h
  have htest := (Leads.next c₁).behind (condition_leads hone ht)
  exact leads_stmt hk ((hst hb).trans htest) rfl (fun _ => nofun) fun hq hs => ⟨hs, hq⟩

theorem forLoop_leads (h : forLoop one st c = .ok s c') :
    Leads tokens c [s.span] ((extent tokens).InStmt s) c' := by
  obtain ⟨-, -, -, range, c₁, hr, -, -, body, hb, rfl⟩ := forLoop_ok.mp h
  have hfront : Leads tokens c.next [] True c.next.next.next.next :=
    (Leads.next _).behind ((Leads.next _).behind (.next _))
  have hrange := (hfront.behind (hone hr)).known_mono FoundExpr.nodes
  exact leads_stmt hk (hrange.trans ((Leads.next c₁).behind (hst hb))) rfl (fun _ => nofun)
    fun hq hs => ⟨hs, hq⟩

omit hone hst

include hss hps in
theorem function_leads (h : function ps ss c = .ok s c') :
    Leads tokens c [s.span] ((extent tokens).InStmt s) c' := by
  obtain ⟨-, -, parameters, c₁, hp, -, type, c₂, ht, ⟨body, span⟩, hb, rfl⟩ := function_ok.mp h
  have hfront : Leads tokens c.next [] True c₂ := (Leads.next _).behind ((Leads.next _).behind
    ((hps hp).behind ((Leads.next c₁).behind (annotation_leads ht))))
  exact leads_stmt hk (hfront.behind (block_leads hss hb).2) rfl
    (fun hq b hb => Option.mem_some_iff.mp hb ▸ hq.1) fun hq hs => ⟨hs, hq.2⟩

omit hk

include hss in
theorem blockStatement_leads {b : Block} (h : block ss c = .ok b c') :
    Leads tokens c [(Stmt.block b).span] ((extent tokens).InStmt (.block b)) c' := by
  obtain ⟨hspan, hleads⟩ := block_leads hss h
  obtain ⟨body, span⟩ := b
  intro hc
  obtain ⟨hupto, hparts, hnests, hbody⟩ := hleads hc
  exact ⟨hupto, hparts, ⟨⟨hparts.2.1, hnests, nofun⟩, hbody⟩⟩

/-- A single word is the whole statement. -/
theorem word_leads (hk : c.current.kind ≠ .eof) (hspan : s.span = c.current.span)
    (hparts : s.parts = []) (hblock : s.block? = none)
    (hnodes : s.Nests → (extent tokens).InStmt s) :
    Leads tokens c [s.span] ((extent tokens).InStmt s) c.next := by
  refine leads_stmt (q := True) hk (hparts ▸ Leads.refl _) ?_ ?_ fun _ => hnodes
  · rw [hspan, c.lastEnd_next hk]
    rfl
  · rw [hblock]
    exact fun _ => nofun

include hone hst hss hps in
theorem anyStatement_leads (h : anyStatement one st ss ps c = .ok s c') :
    Leads tokens c [s.span] ((extent tokens).InStmt s) c' := by
  unfold anyStatement at h
  rw [current_bind] at h
  have hexpr : (one >>= fun e => pure (.expression e)) c = .ok s c' →
      Leads tokens c [s.span] ((extent tokens).InStmt s) c' := by
    intro h
    obtain ⟨e, c₁, he, h⟩ := bind_ok.mp h
    obtain ⟨rfl, rfl⟩ := pure_ok.mp h
    exact expression_leads hone he
  have hkind {k : TokenKind} (hk : c.current.kind = k) (h : k ≠ .eof) :
      c.current.kind ≠ .eof := hk ▸ h
  cases hk : c.current.kind with rw [hk] at h
  | varWord | valWord => exact declaration_leads hone (hkind hk nofun) h
  | funWord => exact function_leads hss hps (hkind hk nofun) h
  | ifWord => exact branching_leads hone hst (hkind hk nofun) h
  | whileWord => exact whileLoop_leads hone hst (hkind hk nofun) h
  | doWord => exact doWhile_leads hone hst (hkind hk nofun) h
  | forWord => exact forLoop_leads hone hst (hkind hk nofun) h
  | returnWord => exact returning_leads hone (hkind hk nofun) h
  | breakWord | continueWord =>
    simp only [advance_bind, pure_ok] at h
    obtain ⟨rfl, rfl⟩ := h
    exact word_leads (hkind hk nofun) rfl rfl rfl id
  | printWord | printlnWord => exact printing_leads hone (hkind hk nofun) h
  | openCurly =>
    obtain ⟨b, c₁, hb, h⟩ := bind_ok.mp h
    obtain ⟨rfl, rfl⟩ := pure_ok.mp h
    exact blockStatement_leads hss hb
  | identifier => exact named_leads hone (hkind hk nofun) h
  | plusPlus | minusMinus => exact steppedFirst_leads hone (hkind hk nofun) h
  | _ => exact hexpr h

end

/-! ## The knot -/

/-- Where the rules of the knot come on `n` units of fuel, and what they have made there. -/
structure Standing (tokens : List Token) (n : Nat) : Prop where
  expression : ∀ {p c e c'}, expression n p c = .ok e c' →
    Leads tokens c [e.span] (FoundExpr tokens c e c') c'
  extended : ∀ {p left c₀ c e c'}, extended n p left c = .ok e c' → c₀.Stands tokens →
    FoundExpr tokens c₀ left c → Reaches c₀ left c → FoundExpr tokens c₀ e c'
  arguments : ∀ {c es c'}, arguments n c = .ok es c' →
    Leads tokens c (es.map Expr.span) ((extent tokens).InExprs es) c'
  statement : ∀ {c s c'}, statement n c = .ok s c' →
    Leads tokens c [s.span] ((extent tokens).InStmt s) c'
  statements : ∀ {close c body c'}, statements n close c = .ok body c' →
    Leads tokens c (body.map Stmt.span) ((extent tokens).InStmts body) c'

theorem semicolons_leads {n : Nat} {u : Unit} (h : semicolons n c = .ok u c') :
    Leads tokens c [] True c' := .of_upto ((carries_semicolons (w := ⟨id, []⟩) n n).upto h)

theorem parameters_leads {n : Nat} {ps : List Parameter} (h : parameters n c = .ok ps c') :
    Leads tokens c [] True c' := .of_upto ((carries_parameters (w := ⟨id, []⟩) n n).upto h)

theorem standing (tokens : List Token) (n : Nat) : Standing tokens n := by
  -- The rules call one another on a unit of fuel less, whatever they read.
  induction n with
  | zero =>
    constructor
    all_goals intros; exact absurd ‹_› outOfFuel_ok
  | succ n ih =>
    constructor
    · intro p c e c' h hc
      obtain ⟨left, c₁, ho, h⟩ := expression_ok.mp h
      -- Of the operand and of all it is extended to, it is known from where it was reached.
      have hreach := reaches_operand ho
      have hleft := (operand_made ih.expression ih.statements ho hc).found hc hreach
      exact (ih.extended h hc hleft hreach).leading hc
    · intro p left c₀ c e c' h hc₀ hl hr
      rcases extended_ok.mp h with ⟨hp, wider, c₁, hw, h⟩ | ⟨-, rfl, rfl⟩
      · have hkind : c.current.kind ≠ .eof := by
          intro hk
          rw [hk] at hp
          exact Nat.not_lt_zero _ hp
        have hreach := hr.continuation hp hw
        have hwider := continuation_made ih.expression ih.arguments hl hc₀ hkind hw
        exact ih.extended h hc₀ (hwider.found hc₀ hreach) hreach
      · exact hl
    · intro c es c' h
      rcases separated_ok.mp h with ⟨-, rfl, rfl⟩ | ⟨-, first, c₁, hf, h⟩
      · exact .refl _
      have hfirst := (ih.expression hf).known_mono FoundExpr.nodes
      rcases h with ⟨-, rest, hr, rfl⟩ | ⟨-, rfl, rfl⟩
      · exact hfirst.trans ((Leads.next c₁).behind (ih.arguments hr))
      · exact hfirst.trans (.refl _)
    · intro c s c' h
      obtain ⟨c₁, hs, h⟩ := statement_ok.mp h
      exact (anyStatement_leads ih.expression ih.statement ih.statements parameters_leads hs).before
        (semicolons_leads h)
    · intro close c body c' h
      rcases statements_ok.mp h with
        ⟨-, rfl, rfl⟩ | ⟨-, -, h⟩ | ⟨-, -, first, c₁, hf, rest, hr, rfl⟩
      · exact .refl _
      · exact (Leads.next c).behind (ih.statements h)
      · exact (ih.statement hf).trans (ih.statements hr)

end Grammar

/-- Nothing is consumed at the start. -/
theorem Cursor.lastEnd_ofTokens (tokens : List Token) (file : String) :
    (ofTokens tokens file).lastEnd = .origin file := by
  unfold ofTokens
  cases tokens.getLast? with
  | none => rfl
  | some t =>
    dsimp only
    split <;> rfl

/-- What a list of tokens spells stands where they do, if they stand in order. -/
theorem Program.ofTokens_extent {tokens ts : List Token} {file : String} {p : Program}
    (hc : (Cursor.ofTokens tokens file).Stands ts) (h : ofTokens tokens file = .ok p) :
    p.span.Holds (p.body.map Stmt.span) ∧ (extent ts).InProgram p := by
  unfold ofTokens at h
  split at h
  case h_2 => cases h
  case h_1 body c hs =>
    cases h
    obtain ⟨hupto, hparts, hbody⟩ := (Grammar.standing ts _).statements hs hc
    rw [Cursor.lastEnd_ofTokens] at hparts
    exact ⟨hparts.widen (Nat.le_refl _) (hc.upto hupto).le_position, hbody⟩

end ScriptLang
