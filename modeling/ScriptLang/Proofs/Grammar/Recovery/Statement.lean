import ScriptLang.Proofs.Grammar.Recovery.Expression

/-!
# Printed statements are read back

Each form of statement is read up to its semicolon, or up to what stands behind its
semicolons if a statement inside it has read them. An `else` behind it must not fit
a branch at its end.
-/

namespace ScriptLang.Grammar

open ScriptLang.Parser

variable {c : Cursor} {w : List Terminal} {n : Nat} {e : Expr}

/-- Behind a statement stand its semicolon and `w`, unless a statement inside it has
read the semicolons already. -/
def Behind (w : List Terminal) (c : Cursor) : Prop :=
  c.ahead = .symbol .semicolon :: w ∨ c.ahead = trim w

theorem separator_append (w : List Terminal) : separator ++ w = .symbol .semicolon :: w := rfl

theorem Behind.trim {c : Cursor} (h : Behind w c) : trim c.ahead = trim w := by
  rcases h with h | h
  · rw [h, trim_semicolon]
  · rw [h, trim_of_ne (nextKind_trim w)]

theorem Behind.length_le {c : Cursor} (h : Behind w c) : c.ahead.length ≤ w.length + 1 := by
  rcases h with h | h
  · have hl : c.ahead.length = w.length + 1 := by rw [h, List.length_cons]
    omega
  · rw [h]
    exact Nat.le_succ_of_le (length_trim_le w)

theorem semicolons_gives (hn : c.ahead.length < n) :
    Gives (semicolons n) c fun _ c' => c'.ahead = trim c.ahead := by
  induction n generalizing c with
  | zero => exact absurd hn (Nat.not_lt_zero _)
  | succ n ih =>
    by_cases hk : c.current.kind = .semicolon
    · have ha : c.ahead = .symbol .semicolon :: c.next.ahead := by
        rw [Cursor.ahead_eq (by rw [hk]; decide), Token.terminal_eq_symbol hk rfl]
      rw [ha, List.length_cons] at hn
      obtain ⟨u, c', h, hc'⟩ := ih (c := c.next) (by omega)
      refine ⟨u, c', semicolons_ok.mpr (.inl ⟨hk, h⟩), ?_⟩
      change c'.ahead = trim c.ahead
      rw [hc', ha, trim_semicolon]
    · exact ⟨(), c, semicolons_ok.mpr (.inr ⟨hk, rfl⟩),
        (trim_of_ne (by rwa [← c.current_kind])).symm⟩

/-- The rule for any statement on the fuel of the knot. -/
def formed (n : Nat) : Parser Stmt :=
  anyStatement (expression n .default) (statement n) (statements n .closeCurly) (parameters n)

/-- The form of a statement is read, up to its semicolon at least. -/
def Forms (s : Stmt) : Prop :=
  ∀ {n c w}, c.ahead = s.terminals separator ++ .symbol .semicolon :: w →
    (s.endsOpen → nextKind (trim w) ≠ .elseWord) → 3 * c.ahead.length < n →
    Gives (formed n) c fun s' c' => s'.bare = s.bare ∧ Behind w c'

/-- A statement is read with all semicolons behind it. -/
theorem Forms.gives {s : Stmt} (h : Forms s)
    (hc : c.ahead = s.terminals separator ++ .symbol .semicolon :: w)
    (he : s.endsOpen → nextKind (trim w) ≠ .elseWord) (hn : 3 * c.ahead.length + 1 < n) :
    Gives (statement n) c fun s' c' => s'.bare = s.bare ∧ c'.ahead = trim w := by
  obtain ⟨n, rfl⟩ := Nat.exists_eq_add_one_of_ne_zero (Nat.ne_zero_of_lt hn)
  obtain ⟨s', c₁, hs, hb, hw⟩ := h hc he (n := n) (by omega)
  have hl := hw.length_le
  rw [hc, List.length_append, List.length_cons] at hn
  obtain ⟨_, c₂, hsc, hc₂⟩ := semicolons_gives (n := n) (c := c₁) (by omega)
  exact ⟨s', c₂, statement_ok.mpr ⟨c₁, hs, hsc⟩, hb, by rw [hc₂, hw.trim]⟩

/-- Statements are read up to a token that none begins with. -/
theorem statements_gives {body : List Stmt} {close : TokenKind}
    (h : ∀ s ∈ body, Forms s) (hclose : close = .closeCurly ∨ close = .eof)
    (hc : c.ahead = Stmt.listTerminals separator body ++ w) (hw : nextKind w = close)
    (hn : 3 * c.ahead.length + 2 < n) :
    Gives (statements n close) c fun body' c' =>
      Stmt.bareList body' = Stmt.bareList body ∧ c'.ahead = w := by
  have hne : close.beginsStatement = false ∧ close.beginsOperand = false := by
    rcases hclose with rfl | rfl <;> decide
  induction body generalizing c n with
  | nil =>
    obtain ⟨n, rfl⟩ := Nat.exists_eq_add_one_of_ne_zero (Nat.ne_zero_of_lt hn)
    have hcw : c.ahead = w := hc
    exact ⟨[], c, statements_ok.mpr (.inl ⟨by rw [c.current_kind, hcw, hw], rfl, rfl⟩), rfl, hcw⟩
  | cons s rest ih =>
    obtain ⟨n, rfl⟩ := Nat.exists_eq_add_one_of_ne_zero (Nat.ne_zero_of_lt hn)
    simp only [Stmt.listTerminals, List.append_assoc, separator_append, List.cons_append] at hc
    -- What follows the statement begins neither with a semicolon nor with `else`.
    have hrest : ∀ k : TokenKind, k.beginsStatement = false ∧ k.beginsOperand = false →
        close ≠ k → nextKind (Stmt.listTerminals separator rest ++ w) ≠ k := by
      intro k hk hck
      cases rest with
      | nil =>
        change nextKind w ≠ k
        rwa [hw]
      | cons r rest =>
        simp only [Stmt.listTerminals, List.append_assoc]
        exact nextKind_terminals_ne separator r _ hk
    have htrim := trim_of_ne (hrest .semicolon (by decide) (by rcases hclose with rfl | rfl <;> decide))
    have hfirst := fun k hk => c.current_kind ▸ hc ▸ nextKind_terminals_ne separator s
      (.symbol .semicolon :: (Stmt.listTerminals separator rest ++ w)) (k := k) hk
    obtain ⟨s', c₁, hs, hb, hc₁⟩ := Forms.gives (n := n) (h s List.mem_cons_self) hc
      (fun _ => by
        rw [htrim]
        exact hrest .elseWord (by decide) (by rcases hclose with rfl | rfl <;> decide))
      (by omega)
    rw [htrim] at hc₁
    rw [hc, List.length_append, List.length_cons] at hn
    obtain ⟨rest', c₂, hr, hbr, hc₂⟩ :=
      ih (n := n) (fun s hs => h s (List.mem_cons_of_mem _ hs)) hc₁ (by rw [hc₁]; omega)
    refine ⟨s' :: rest', c₂, statements_ok.mpr (.inr (.inr ⟨hfirst close hne,
      hfirst .semicolon (by decide), s', c₁, hs, rest', hr, rfl⟩)), ?_, hc₂⟩
    rw [Stmt.bareList, hb, hbr, Stmt.bareList]

theorem block_gives {body : List Stmt} (h : ∀ s ∈ body, Forms s)
    (hc : c.ahead = .symbol .openCurly :: (Stmt.listTerminals separator body ++
      .symbol .closeCurly :: w))
    (hn : 3 * c.ahead.length < n) :
    Gives (block (statements n .closeCurly)) c fun b c' =>
      Stmt.bareList b.body = Stmt.bareList body ∧ c'.ahead = w := by
  obtain ⟨hk, hnext⟩ := Cursor.ahead_symbol hc
  rw [hc, List.length_cons] at hn
  obtain ⟨body', c₁, hb, hbare, hc₁⟩ :=
    statements_gives (n := n) h (.inl rfl) hnext rfl (by rw [hnext]; omega)
  obtain ⟨hk₁, hnext₁⟩ := Cursor.ahead_symbol hc₁
  exact ⟨_, _, block_ok.mpr ⟨hk, body', c₁, hb, hk₁, rfl, rfl⟩, hbare, hnext₁⟩

section

variable {s : Stmt} {u : Span} {q : Stmt → Cursor → Prop}

theorem formed_gives {x : Parser Stmt} (hx : formed n c = x c) (h : Gives x c q) :
    Gives (formed n) c q := by
  obtain ⟨s, c', h, hq⟩ := h
  exact ⟨s, c', hx ▸ h, hq⟩

theorem annotation_gives {t : Option DeclaredType}
    (hc : c.ahead = t.elim [] DeclaredType.annotation ++ w) (hw : nextKind w ≠ .colon) :
    ∃ c', annotation c = .ok t c' ∧ c'.ahead = w := by
  cases t with
  | none =>
    have hcw : c.ahead = w := hc
    exact ⟨c, annotation_ok.mpr (.inr ⟨by rwa [c.current_kind, hcw], rfl, rfl⟩), hcw⟩
  | some t =>
    obtain ⟨hk, hnext⟩ := Cursor.ahead_symbol hc
    obtain ⟨hk₁, ht, hnext₁⟩ := Cursor.ahead_name hnext
    have hof : some t = DeclaredType.ofName? t.name := by cases t <;> rfl
    exact ⟨c.next.next, annotation_ok.mpr (.inl ⟨hk, t, typeName_ok.mpr
      ⟨hk₁, by rw [ht, ← hof], rfl⟩, rfl⟩), hnext₁⟩

theorem condition_gives (h : Recovers e)
    (hc : c.ahead = parenthesized (e.terminals separator) ++ w) (hn : 3 * c.ahead.length < n) :
    Gives (condition (expression n .default)) c fun e' c' => e'.bare = e.bare ∧ c'.ahead = w := by
  simp only [parenthesized, List.cons_append, List.append_assoc, List.nil_append] at hc
  obtain ⟨hk, hnext⟩ := Cursor.ahead_symbol hc
  rw [hc, List.length_cons] at hn
  obtain ⟨e', c₁, he, hb, hc₁⟩ := h.gives_default (n := n) hnext rfl (by rw [hnext]; omega)
  obtain ⟨hk₁, hnext₁⟩ := Cursor.ahead_symbol hc₁
  exact ⟨e', c₁.next, condition_ok.mpr ⟨hk, c₁, he, hk₁, rfl⟩, hb, hnext₁⟩

/-- A value that is read if one can begin here. -/
theorem optional_gives {v : Option Expr} {p : Prop} (hv : ∀ e, v = some e → Recovers e)
    (hp : p ↔ v.isSome) (hc : c.ahead = Expr.optionTerminals separator v ++ w)
    (hw : (nextKind w).bindingPower = .default) (hn : 3 * c.ahead.length < n) :
    ∃ v' c', Optional p (expression n .default) c c v' c' ∧
      Expr.bareOption v' = Expr.bareOption v ∧ c'.ahead = w := by
  cases v with
  | none => exact ⟨none, c, .inr ⟨by simpa using hp, rfl, rfl⟩, rfl, hc⟩
  | some e =>
    obtain ⟨e', c', he, hb, hc'⟩ := Recovers.gives_default (n := n) (hv e rfl) hc hw hn
    exact ⟨some e', c', .inl ⟨hp.mpr rfl, e', he, rfl⟩, congrArg some hb, hc'⟩

theorem forms_declare {name : String} {k : Bool} {t : Option DeclaredType} {v : Option Expr}
    (hv : ∀ e, v = some e → Recovers e) (hs : t.isSome ∨ v.isSome) :
    Forms (.declare name k t v u) := by
  intro n c w hc _ hn
  simp only [Stmt.terminals, List.cons_append, List.append_assoc] at hc
  obtain ⟨hk, hnext⟩ := Cursor.ahead_symbol hc
  obtain ⟨hk₁, hname, hnext₁⟩ := Cursor.ahead_name hnext
  have hx : formed n c = declaration (expression n .default) c := by
    rw [formed, anyStatement, current_bind, hk]
    cases k <;> rfl
  obtain ⟨c₁, ht, hc₁⟩ := annotation_gives hnext₁ (by
    cases v <;> simp [Expr.initialTerminals, nextKind, Terminal.kind])
  simp only [hc, List.length_cons, List.length_append] at hn
  have hval : ∃ v' c', Optional (c₁.current.kind = .assignment) (expression n .default) c₁.next c₁
      v' c' ∧ Expr.bareOption v' = Expr.bareOption v ∧ c'.ahead = .symbol .semicolon :: w := by
    cases v with
    | none =>
      have hc₁ : c₁.ahead = .symbol .semicolon :: w := hc₁
      refine ⟨none, c₁, .inr ⟨?_, rfl, rfl⟩, rfl, hc₁⟩
      rw [(Cursor.ahead_symbol hc₁).1]
      decide
    | some e =>
      have hc₁ : c₁.ahead =
          .symbol .assignment :: (e.terminals separator ++ .symbol .semicolon :: w) := hc₁
      obtain ⟨hk₂, hnext₂⟩ := Cursor.ahead_symbol hc₁
      obtain ⟨e', c', he, hb, hc'⟩ := Recovers.gives_default (n := n) (hv e rfl) hnext₂ rfl (by
        rw [hnext₂]
        simp only [Expr.initialTerminals, List.length_append, List.length_cons] at hn ⊢
        omega)
      exact ⟨some e', c', .inl ⟨hk₂, e', he, rfl⟩, congrArg some hb, hc'⟩
  obtain ⟨v', c₂, hv', hb, hc₂⟩ := hval
  have hsome : ¬ (t.isNone && v'.isNone) := by
    rw [← Expr.bareOption_isNone v', hb, Expr.bareOption_isNone]
    cases t <;> cases v <;> simp_all
  refine formed_gives hx ⟨_, c₂, declaration_ok.mpr ⟨hk₁, t, c₁, ht, v', hv', hsome, rfl⟩, ?_,
    .inl hc₂⟩
  rw [Stmt.bare, Stmt.bare, hb, hname, hk]
  cases k <;> rfl

/-- A step before the variable. -/
theorem forms_stepFirst {name : String} {step : Step} (hb : step.isBefore = true) :
    Forms (.assign name (.step step) none u) := by
  intro n c w hc _ _
  simp only [Stmt.terminals, hb, if_true, List.cons_append, List.nil_append] at hc
  obtain ⟨hk, hnext⟩ := Cursor.ahead_symbol hc
  obtain ⟨hk₁, hname, hnext₁⟩ := Cursor.ahead_name hnext
  have hx : formed n c = steppedFirst (expression n .default) step c := by
    rw [formed, anyStatement, current_bind, hk]
    cases step <;> first | rfl | cases hb
  have hp := Cursor.peek_one (c := c) (by rw [hk]; cases step <;> decide)
  refine formed_gives hx ⟨_, _, steppedFirst_ok.mpr (.inl ⟨by rw [hp, hk₁], rfl, rfl⟩), ?_,
    .inl hnext₁⟩
  rw [Stmt.bare, Stmt.bare, hname]

/-- A step behind the variable. -/
theorem forms_stepLast {name : String} {step : Step} (hb : step.isBefore = false) :
    Forms (.assign name (.step step) none u) := by
  intro n c w hc _ _
  simp only [Stmt.terminals, hb, Bool.false_eq_true, if_false, List.cons_append,
    List.nil_append] at hc
  obtain ⟨hk, hname, hnext⟩ := Cursor.ahead_name hc
  obtain ⟨hk₁, hnext₁⟩ := Cursor.ahead_symbol hnext
  have hx : formed n c = named (expression n .default) c := by
    rw [formed, anyStatement, current_bind, hk]
  have hp := Cursor.peek_one (c := c) (by rw [hk]; decide)
  have ha : step.token.assignOperator? = none := by cases step <;> rfl
  have hs : (c.peek 1).kind.postfixStep? = some step := by
    rw [hp, hk₁, Step.postfixStep?_token hb]
  refine formed_gives hx ⟨_, _, named_ok.mpr (.inr (.inl ⟨by rw [hp, hk₁, ha], step, hs, rfl,
    rfl⟩)), ?_, .inl hnext₁⟩
  rw [Stmt.bare, Stmt.bare, hname]

theorem forms_assignValue {name : String} {o : AssignOperator} {e : Expr} (he : Recovers e)
    (ho : o.isStep = false) : Forms (.assign name o (some e) u) := by
  intro n c w hc _ hn
  have hc : c.ahead = .name name :: .symbol o.token ::
      (e.terminals separator ++ .symbol .semicolon :: w) := by
    cases o with
    | step step => cases ho
    | _ => exact hc
  obtain ⟨hk, hname, hnext⟩ := Cursor.ahead_name hc
  obtain ⟨hk₁, hnext₁⟩ := Cursor.ahead_symbol hnext
  have hx : formed n c = named (expression n .default) c := by
    rw [formed, anyStatement, current_bind, hk]
  have hp := Cursor.peek_one (c := c) (by rw [hk]; decide)
  simp only [hc, List.length_cons] at hn
  obtain ⟨e', c₁, he, hb, hc₁⟩ := he.gives_default (n := n) hnext₁ rfl (by
    rw [hnext₁]
    omega)
  refine formed_gives hx ⟨_, _, named_ok.mpr (.inl ⟨o, ?_, e', he, rfl⟩), ?_, .inl hc₁⟩
  · rw [hp, hk₁, AssignOperator.assignOperator?_token ho]
  · simp [Stmt.bare, Expr.bareOption, hb, hname]

theorem forms_assign {name : String} {o : AssignOperator} {v : Option Expr}
    (hv : ∀ e, v = some e → Recovers e) (hs : v.isNone ↔ o.isStep) :
    Forms (.assign name o v u) := by
  cases v with
  | none =>
    obtain ⟨step, rfl⟩ : ∃ step, o = .step step := by
      cases o with
      | step step => exact ⟨step, rfl⟩
      | _ => exact absurd (hs.mp rfl) Bool.false_ne_true
    cases hb : step.isBefore with
    | true => exact forms_stepFirst hb
    | false => exact forms_stepLast hb
  | some e =>
    have ho : o.isStep = false := by
      cases h : o.isStep with
      | true => exact absurd (hs.mpr h) Bool.false_ne_true
      | false => rfl
    intro n c w
    exact forms_assignValue (hv e rfl) ho

theorem forms_print {v : Option Expr} {l : Bool} (hv : ∀ e, v = some e → Recovers e) :
    Forms (.print v l u) := by
  intro n c w hc _ hn
  simp only [Stmt.terminals, parenthesized, List.cons_append, List.append_assoc,
    List.nil_append] at hc
  obtain ⟨hk, hnext⟩ := Cursor.ahead_symbol hc
  obtain ⟨hk₁, hnext₁⟩ := Cursor.ahead_symbol hnext
  have hx : formed n c = printing (expression n .default) c := by
    rw [formed, anyStatement, current_bind, hk]
    cases l <;> rfl
  have hp : c.next.next.current.kind ≠ .closeParen ↔ v.isSome := by
    rw [Cursor.current_kind, hnext₁]
    cases v with
    | none => simp [Expr.optionTerminals, nextKind, Terminal.kind]
    | some e =>
      have := beginsOperand_terminals separator e (.symbol .closeParen :: .symbol .semicolon :: w)
      refine ⟨fun _ => rfl, fun _ h => ?_⟩
      rw [Expr.optionTerminals] at h
      rw [h] at this
      cases this
  simp only [hc, List.length_cons] at hn
  obtain ⟨v', c₁, hv', hb, hc₁⟩ :=
    optional_gives (n := n) hv hp hnext₁ rfl (by rw [hnext₁]; omega)
  obtain ⟨hk₂, hnext₂⟩ := Cursor.ahead_symbol hc₁
  refine formed_gives hx ⟨_, _, printing_ok.mpr ⟨hk₁, v', c₁, hv', hk₂, rfl, rfl⟩, ?_,
    .inl hnext₂⟩
  rw [Stmt.bare, Stmt.bare, hb, hk]
  cases l <;> rfl

theorem forms_block {body : List Stmt} (h : ∀ s ∈ body, Forms s) : Forms (.block ⟨body, u⟩) := by
  intro n c w hc _ hn
  simp only [Stmt.terminals, List.cons_append, List.append_assoc, List.nil_append] at hc
  have hk := (Cursor.ahead_symbol hc).1
  obtain ⟨b, c₁, hb, hbare, hc₁⟩ := block_gives h hc hn
  have hx : formed n c = (Stmt.block <$> block (statements n .closeCurly)) c := by
    rw [formed, anyStatement, current_bind, hk]
    rfl
  refine formed_gives hx ⟨.block b, c₁, map_ok.mpr ⟨b, hb, rfl⟩, ?_, .inl hc₁⟩
  obtain ⟨body', t⟩ := b
  rw [Stmt.bare, Stmt.bare, hbare]

theorem forms_whileLoop {test : Expr} {body : Stmt} (ht : Recovers test) (hb : Forms body) :
    Forms (.whileLoop test body u) := by
  intro n c w hc ho hn
  simp only [Stmt.terminals, List.cons_append, List.append_assoc, separator_append] at hc
  obtain ⟨hk, hnext⟩ := Cursor.ahead_symbol hc
  have hx : formed n c = whileLoop (expression n .default) (statement n) c := by
    rw [formed, anyStatement, current_bind, hk]
  rw [hc, List.length_cons] at hn
  obtain ⟨test', c₁, ht', hbare, hc₁⟩ :=
    condition_gives (n := n) ht hnext (by rw [hnext]; omega)
  obtain ⟨body', c₂, hb', hbare', hc₂⟩ := hb.gives (n := n) hc₁ ho (by
    simp only [parenthesized, List.length_append, List.length_cons] at hn
    simp only [hc₁, List.length_append, List.length_cons]
    omega)
  refine formed_gives hx ⟨_, c₂, whileLoop_ok.mpr ⟨test', c₁, ht', body', hb', rfl⟩, ?_,
    .inr hc₂⟩
  rw [Stmt.bare, Stmt.bare, hbare, hbare']

theorem forms_doWhile {test : Expr} {body : Stmt} (ht : Recovers test) (hb : Forms body) :
    Forms (.doWhile body test u) := by
  intro n c w hc _ hn
  simp only [Stmt.terminals, List.cons_append, List.append_assoc, separator_append] at hc
  obtain ⟨hk, hnext⟩ := Cursor.ahead_symbol hc
  have hx : formed n c = doWhile (expression n .default) (statement n) c := by
    rw [formed, anyStatement, current_bind, hk]
  rw [hc, List.length_cons] at hn
  obtain ⟨body', c₁, hb', hbare, hc₁⟩ := hb.gives (n := n) hnext
    (fun _ => by simp [trim, nextKind, Terminal.kind]) (by
    rw [hnext]
    omega)
  have hc₁ : c₁.ahead = .symbol .whileWord :: (parenthesized (test.terminals separator) ++
      .symbol .semicolon :: w) := hc₁
  obtain ⟨hk₁, hnext₁⟩ := Cursor.ahead_symbol hc₁
  simp only [List.length_append, List.length_cons] at hn
  obtain ⟨test', c₂, ht', hbare', hc₂⟩ := condition_gives (n := n) ht hnext₁ (by
    simp only [hnext₁, List.length_append, List.length_cons]
    omega)
  refine formed_gives hx ⟨_, c₂, doWhile_ok.mpr ⟨body', c₁, hb', hk₁, test', ht', rfl⟩, ?_,
    .inl hc₂⟩
  rw [Stmt.bare, Stmt.bare, hbare, hbare']

theorem forms_forLoop {counter : String} {range : Expr} {body : Stmt} (hr : Recovers range)
    (hb : Forms body) (hs : range.ungroup.isRange) : Forms (.forLoop counter range body u) := by
  intro n c w hc ho hn
  simp only [Stmt.terminals, parenthesized, List.cons_append, List.append_assoc,
    List.nil_append, separator_append] at hc
  obtain ⟨hk, hnext⟩ := Cursor.ahead_symbol hc
  obtain ⟨hk₁, hnext₁⟩ := Cursor.ahead_symbol hnext
  obtain ⟨hk₂, hname, hnext₂⟩ := Cursor.ahead_name hnext₁
  obtain ⟨hk₃, hnext₃⟩ := Cursor.ahead_symbol hnext₂
  have hx : formed n c = forLoop (expression n .default) (statement n) c := by
    rw [formed, anyStatement, current_bind, hk]
  simp only [hc, List.length_cons, List.length_append] at hn
  obtain ⟨range', c₁, hr', hbare, hc₁⟩ := hr.gives_default (n := n) hnext₃ rfl (by
    simp only [hnext₃, List.length_append, List.length_cons]
    omega)
  obtain ⟨hk₄, hnext₄⟩ := Cursor.ahead_symbol hc₁
  obtain ⟨body', c₂, hb', hbare', hc₂⟩ := hb.gives (n := n) hnext₄ ho (by
    simp only [hnext₄, List.length_append, List.length_cons]
    omega)
  have hs' : range'.ungroup.isRange := by
    rwa [← Expr.isRange_ungroup_bare, hbare, Expr.isRange_ungroup_bare]
  refine formed_gives hx ⟨_, c₂, forLoop_ok.mpr ⟨hk₁, hk₂, hk₃, range', c₁, hr', hk₄, hs', body',
    hb', rfl⟩, ?_, .inr hc₂⟩
  rw [Stmt.bare, Stmt.bare, hbare, hbare', hname]

theorem forms_branch {test : Expr} {a : Stmt} {b : Option Stmt} (ht : Recovers test)
    (ha : Forms a) (hb : ∀ s, b = some s → Forms s) (hs : b.isSome → ¬ a.endsOpen) :
    Forms (.branch test a b u) := by
  intro n c w hc ho hn
  simp only [Stmt.terminals, List.cons_append, List.append_assoc, separator_append] at hc
  obtain ⟨hk, hnext⟩ := Cursor.ahead_symbol hc
  have hx : formed n c = branching (expression n .default) (statement n) c := by
    rw [formed, anyStatement, current_bind, hk]
  simp only [hc, List.length_cons, List.length_append] at hn
  obtain ⟨test', c₁, ht', hbare, hc₁⟩ := condition_gives (n := n) ht hnext (by
    simp only [hnext, List.length_append, List.length_cons]
    omega)
  -- The `else` that follows, if any, belongs to this branch.
  have hopen : a.endsOpen → nextKind (trim (Stmt.elseTerminals separator b ++
      .symbol .semicolon :: w)) ≠ .elseWord := by
    intro h
    cases b with
    | none => exact ho rfl
    | some s => exact absurd h (hs rfl)
  obtain ⟨a', c₂, ha', hbare', hc₂⟩ := ha.gives (n := n) hc₁ hopen (by
    simp only [hc₁, List.length_append, List.length_cons]
    omega)
  have helse : ∃ b' c', Optional (c₂.current.kind = .elseWord) (statement n) c₂.next c₂ b' c' ∧
      Stmt.bareOption b' = Stmt.bareOption b ∧ c'.ahead = trim w := by
    cases b with
    | none =>
      have hc₂ : c₂.ahead = trim w := hc₂
      refine ⟨none, c₂, .inr ⟨?_, rfl, rfl⟩, rfl, hc₂⟩
      rw [c₂.current_kind, hc₂]
      exact ho rfl
    | some s =>
      have hc₂ : c₂.ahead = .symbol .elseWord :: (s.terminals separator ++
          .symbol .semicolon :: .symbol .semicolon :: w) := by
        simpa [Stmt.elseTerminals, trim, Terminal.kind, separator] using hc₂
      obtain ⟨hk₂, hnext₂⟩ := Cursor.ahead_symbol hc₂
      obtain ⟨s', c', hs', hb', hc'⟩ := Forms.gives (n := n) (hb s rfl) hnext₂ ho (by
        simp only [Stmt.elseTerminals, hnext₂, List.length_append, List.length_cons] at hn ⊢
        omega)
      exact ⟨some s', c', .inl ⟨hk₂, s', hs', rfl⟩, congrArg some hb', hc'⟩
  obtain ⟨b', c₃, hb', hbare'', hc₃⟩ := helse
  refine formed_gives hx ⟨_, c₃, branching_ok.mpr ⟨test', c₁, ht', a', c₂, ha', b', hb', rfl⟩, ?_,
    .inr hc₃⟩
  rw [Stmt.bare, Stmt.bare, hbare, hbare', hbare'']

theorem parameters_gives {ps : List Parameter}
    (hc : c.ahead = separatedTerminals (ps.map Parameter.terminals) ++ .symbol .closeParen :: w)
    (hn : 3 * c.ahead.length + 1 < n) :
    Gives (parameters n) c fun ps' c' => ps' = ps ∧ c'.ahead = .symbol .closeParen :: w := by
  have hitem : ∀ p ∈ ps, ∀ {n : Nat} {c : Cursor} {u : List Terminal},
      c.ahead = Parameter.terminals p ++ u → nextKind u = .comma ∨ nextKind u = .closeParen →
      3 * c.ahead.length < n → Gives parameter c fun p' c' => id p' = id p ∧ c'.ahead = u := by
    intro p _ n c u hc _ _
    obtain ⟨hk, hname, hnext⟩ := Cursor.ahead_name hc
    obtain ⟨hk₁, hnext₁⟩ := Cursor.ahead_symbol hnext
    obtain ⟨hk₂, ht, hnext₂⟩ := Cursor.ahead_name hnext₁
    have hof : some p.type = DeclaredType.ofName? p.type.name := by cases p.type <;> rfl
    exact ⟨p, c.next.next.next, parameter_ok.mpr ⟨hk, hk₁, p.type, typeName_ok.mpr
      ⟨hk₂, by rw [ht, ← hof], rfl⟩, by rw [hname]⟩, rfl, hnext₂⟩
  have hrule : ∀ n, parameters (n + 1) = separated parameter (parameters n) := fun _ => rfl
  obtain ⟨ps', c', h, hb, hc'⟩ := separated_gives (n := n) hrule Parameter.terminals id
    (fun p _ u => by simp [Parameter.terminals, nextKind, Terminal.kind]) hitem hc hn
  rw [List.map_id, List.map_id] at hb
  exact ⟨ps', c', h, hb, hc'⟩

theorem forms_function {name : String} {ps : List Parameter} {t : DeclaredType}
    {body : List Stmt} {v : Span} (h : ∀ s ∈ body, Forms s) :
    Forms (.function ⟨name, ps, t, ⟨body, v⟩, u⟩) := by
  intro n c w hc _ hn
  simp only [Stmt.terminals, parenthesized, List.cons_append, List.append_assoc,
    List.nil_append] at hc
  obtain ⟨hk, hnext⟩ := Cursor.ahead_symbol hc
  obtain ⟨hk₁, hname, hnext₁⟩ := Cursor.ahead_name hnext
  obtain ⟨hk₂, hnext₂⟩ := Cursor.ahead_symbol hnext₁
  have hx : formed n c = function (parameters n) (statements n .closeCurly) c := by
    rw [formed, anyStatement, current_bind, hk]
  simp only [hc, List.length_cons, List.length_append] at hn
  obtain ⟨_, c₁, hps, rfl, hc₁⟩ := parameters_gives (n := n) hnext₂ (by
    simp only [hnext₂, List.length_append, List.length_cons]
    omega)
  obtain ⟨hk₃, hnext₃⟩ := Cursor.ahead_symbol hc₁
  -- The type `Unit` is not printed, and is taken where none is written.
  obtain ⟨t', ht', hres⟩ : ∃ t' : Option DeclaredType, t'.getD .unit = t ∧
      t.result = t'.elim [] DeclaredType.annotation := by
    by_cases h : t = .unit
    · exact ⟨none, h.symm, if_pos h⟩
    · exact ⟨some t, rfl, if_neg h⟩
  rw [hres] at hnext₃
  obtain ⟨c₂, ha, hc₂⟩ := annotation_gives hnext₃ (by simp [nextKind, Terminal.kind])
  obtain ⟨b, c₃, hb, hbare, hc₃⟩ := block_gives (n := n) h hc₂ (by
    simp only [hc₂, List.length_append, List.length_cons]
    omega)
  refine formed_gives hx ⟨_, c₃, function_ok.mpr ⟨hk₁, hk₂, _, c₁, hps, hk₃, t', c₂, ha, b, hb,
    rfl⟩, ?_, .inl hc₃⟩
  obtain ⟨body', v'⟩ := b
  rw [Stmt.bare, Stmt.bare, hbare, hname, ht']

theorem forms_return {v : Option Expr} (hv : ∀ e, v = some e → Recovers e) :
    Forms (.return v u) := by
  intro n c w hc _ hn
  simp only [Stmt.terminals, List.cons_append] at hc
  obtain ⟨hk, hnext⟩ := Cursor.ahead_symbol hc
  have hx : formed n c = returning (expression n .default) c := by
    rw [formed, anyStatement, current_bind, hk]
  have hp : c.next.current.kind.beginsOperand ↔ v.isSome := by
    rw [Cursor.current_kind, hnext]
    cases v with
    | none => simp [Expr.optionTerminals, nextKind, Terminal.kind, TokenKind.beginsOperand,
        TokenKind.prefixOperator?]
    | some e => exact ⟨fun _ => rfl, fun _ => beginsOperand_terminals separator e _⟩
  rw [hc, List.length_cons] at hn
  obtain ⟨v', c₁, hv', hb, hc₁⟩ :=
    optional_gives (n := n) hv hp hnext rfl (by rw [hnext]; omega)
  refine formed_gives hx ⟨_, c₁, returning_ok.mpr ⟨v', hv', rfl⟩, ?_, .inl hc₁⟩
  rw [Stmt.bare, Stmt.bare, hb]

theorem forms_break : Forms (.break u) := by
  intro n c w hc _ _
  obtain ⟨hk, hnext⟩ := Cursor.ahead_symbol hc
  have hx : formed n c = (pure (.break c.current.span) : Parser Stmt) c.next := by
    rw [formed, anyStatement, current_bind, hk]
    rfl
  exact ⟨_, c.next, hx, rfl, .inl hnext⟩

theorem forms_continue : Forms (.continue u) := by
  intro n c w hc _ _
  obtain ⟨hk, hnext⟩ := Cursor.ahead_symbol hc
  have hx : formed n c = (pure (.continue c.current.span) : Parser Stmt) c.next := by
    rw [formed, anyStatement, current_bind, hk]
    rfl
  exact ⟨_, c.next, hx, rfl, .inl hnext⟩

/-- An expression that does not begin as an assignment does not with what follows
it either. -/
theorem beginAssignment_ahead (h : ¬ e.beginsAssignment)
    (hc : c.ahead = e.terminals separator ++ .symbol .semicolon :: w) :
    TokenKind.beginAssignment c.current.kind c.next.current.kind = false := by
  unfold Expr.beginsAssignment at h
  rw [c.current_kind, c.next.current_kind]
  match ht : e.terminals separator with
  | [] =>
    rw [ht] at hc
    rw [hc]
    rfl
  | [t] =>
    rw [ht] at hc
    rw [hc, (Cursor.ahead_cons hc).2]
    exact TokenKind.beginAssignment_semicolon t.kind
  | t :: t' :: ts =>
    rw [ht] at hc h
    rw [hc, (Cursor.ahead_cons hc).2]
    exact Bool.eq_false_iff.mpr h

theorem forms_expression (h : Recovers e) (hs : ¬ e.beginsAssignment) : Forms (.expression e) := by
  intro n c w hc _ hn
  rw [Stmt.terminals] at hc
  obtain ⟨e', c₁, he, hb, hc₁⟩ := h.gives_default (n := n) hc rfl hn
  have hfirst : c.current.kind.beginsOperand := by
    rw [c.current_kind, hc]
    exact beginsOperand_terminals separator e _
  have hsecond := beginAssignment_ahead hs hc
  have hp : c.current.kind ≠ .eof → c.peek 1 = c.next.current := Cursor.peek_one
  refine ⟨.expression e', c₁, ?_, by rw [Stmt.bare, Stmt.bare, hb], .inl hc₁⟩
  have hplain : (expression n .default >>= fun e => pure (Stmt.expression e)) c =
      .ok (.expression e') c₁ := bind_ok.mpr ⟨e', c₁, he, rfl⟩
  rw [formed, anyStatement, current_bind]
  cases hk : c.current.kind with
  | identifier =>
    simp only [hk, TokenKind.beginAssignment] at hsecond hp
    refine named_ok.mpr (.inr (.inr ⟨?_, ?_, e', he, rfl⟩))
    · simp_all
    · simp_all
  | plusPlus =>
    simp only [hk, TokenKind.beginAssignment, TokenKind.postfixStep?] at hsecond hp
    refine steppedFirst_ok.mpr (.inr ⟨?_, e', he, rfl⟩)
    simp_all
  | minusMinus =>
    simp only [hk, TokenKind.beginAssignment, TokenKind.postfixStep?] at hsecond hp
    refine steppedFirst_ok.mpr (.inr ⟨?_, e', he, rfl⟩)
    simp_all
  | _ => first | exact hplain | (rw [hk] at hfirst; cases hfirst)

theorem recovers_run {body : List Stmt} {v : Span} (h : ∀ s ∈ body, Forms s) :
    Recovers (.run ⟨body, v⟩ u) := by
  intro n p c w q hc hw hp hn hq
  obtain ⟨n, rfl⟩ := Nat.exists_eq_add_one_of_ne_zero (Nat.ne_zero_of_lt hn)
  simp only [Expr.terminals, List.cons_append, List.append_assoc, List.nil_append] at hc
  obtain ⟨hk, hnext⟩ := Cursor.ahead_symbol hc
  simp only [hc, List.length_cons, List.length_append] at hn
  obtain ⟨b, c₁, hb, hbare, hc₁⟩ := block_gives (n := n) h hnext (by
    simp only [hnext, List.length_append, List.length_cons]
    omega)
  refine expression_gives ⟨_, c₁, operand_ok.mpr (.inr (.inr (.inl ⟨hk, runBlock_ok.mpr
    ⟨b, hb, rfl⟩⟩))), ?_⟩
  refine hq ?_ hc₁ (by omega)
  obtain ⟨body', v'⟩ := b
  rw [Expr.bare, Expr.bare, hbare]

end

end ScriptLang.Grammar
