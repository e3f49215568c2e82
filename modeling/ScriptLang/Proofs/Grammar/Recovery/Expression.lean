import ScriptLang.Proofs.Grammar.Ahead
import ScriptLang.Proofs.Grammar.Rule
import ScriptLang.Proofs.Tree.Bare
import ScriptLang.Proofs.Tree.Printing

/-!
# Printed expressions are read back

The rule for expressions before the terminals of one gives it up to spans and stops
behind them. This is stated with what the operator loop does next, since the operand
on the left of a node is read by the same loop as the node itself.
-/

namespace ScriptLang

namespace Parser

variable {α β : Type} {c : Cursor}

/-- A rule succeeds, with a result and a cursor behind it as `q` demands. -/
def Gives (x : Parser α) (c : Cursor) (q : α → Cursor → Prop) : Prop :=
  ∃ a c', x c = .ok a c' ∧ q a c'

end Parser

namespace Grammar

open ScriptLang.Parser

variable {c : Cursor} {w : List Terminal} {n : Nat} {p : BindingPower} {left e : Expr}
  {q : Expr → Cursor → Prop}

theorem expression_gives
    (h : Gives (operand (expression n) (statements n .closeCurly)) c fun left c₁ =>
      Gives (extended n p left) c₁ q) :
    Gives (expression (n + 1) p) c q := by
  obtain ⟨left, c₁, ho, e, c₂, he, hq⟩ := h
  exact ⟨e, c₂, expression_ok.mpr ⟨left, c₁, ho, he⟩, hq⟩

theorem extended_gives (hp : p < c.current.kind.bindingPower)
    (h : Gives (continuation (expression n) (arguments n) left) c fun wider c₁ =>
      Gives (extended n p wider) c₁ q) :
    Gives (extended (n + 1) p left) c q := by
  obtain ⟨wider, c₁, hc, e, c₂, he, hq⟩ := h
  exact ⟨e, c₂, extended_ok.mpr (.inl ⟨hp, wider, c₁, hc, he⟩), hq⟩

theorem extended_stops (hp : c.current.kind.bindingPower ≤ p) (hq : q left c) :
    Gives (extended (n + 1) p left) c q :=
  ⟨left, c, extended_ok.mpr (.inr ⟨BindingPower.not_lt.mpr hp, rfl, rfl⟩), hq⟩

/-- A place that asks for `p` takes an expression without parentheses. What begins
with a prefix operator stands also where a tighter operand is asked for. -/
def Takes (p : BindingPower) (e : Expr) : Prop := p < e.power ∨ p = .unary ∧ e.power = .unary

/-- Wherever the terminals of an expression stand and nothing behind them binds
tighter, the operator loop goes on behind them with that expression. -/
def Recovers (e : Expr) : Prop :=
  ∀ {n p c w} {q : Expr → Cursor → Prop}, c.ahead = e.terminals separator ++ w →
    (nextKind w).bindingPower ≤ e.power → Takes p e → 3 * c.ahead.length < n →
    (∀ {m e' c'}, e'.bare = e.bare → c'.ahead = w → 3 * w.length < m →
      Gives (extended m p e') c' q) →
    Gives (expression n p) c q

/-- Where the loop goes on no further, the expression is what is read. -/
theorem Recovers.gives (h : Recovers e) (hc : c.ahead = e.terminals separator ++ w)
    (hw : (nextKind w).bindingPower ≤ p) (hp : Takes p e) (hn : 3 * c.ahead.length < n) :
    Gives (expression n p) c fun e' c' => e'.bare = e.bare ∧ c'.ahead = w := by
  have hpe : p ≤ e.power := by
    rcases hp with hp | ⟨hp, he⟩
    · exact BindingPower.le_of_lt hp
    · rw [hp, he]
      exact Nat.le_refl _
  refine h hc (Nat.le_trans hw hpe) hp hn ?_
  intro m e' c' hb hc' hm
  obtain ⟨m, rfl⟩ := Nat.exists_eq_add_one_of_ne_zero (Nat.ne_zero_of_lt hm)
  exact extended_stops (by rw [c'.current_kind, hc']; exact hw) ⟨hb, hc'⟩

/-- A place between brackets takes every expression. -/
theorem Recovers.gives_default (h : Recovers e) (hc : c.ahead = e.terminals separator ++ w)
    (hw : (nextKind w).bindingPower = .default) (hn : 3 * c.ahead.length < n) :
    Gives (expression n .default) c fun e' c' => e'.bare = e.bare ∧ c'.ahead = w :=
  h.gives hc (by rw [hw]; exact Nat.le_refl _) (.inl e.default_lt_power) hn

theorem recovers_primary {t : Terminal} (ht : e.terminals separator = [t])
    (hp : ∀ s, ∃ e', t.primary? s = some e' ∧ e'.bare = e.bare) : Recovers e := by
  intro n p c w q hc hw hp' hn hq
  obtain ⟨n, rfl⟩ := Nat.exists_eq_add_one_of_ne_zero (Nat.ne_zero_of_lt hn)
  rw [hc, ht, List.singleton_append, List.length_cons] at hn
  rw [ht] at hc
  obtain ⟨htc, hnext⟩ := Cursor.ahead_cons hc
  obtain ⟨e', he', hb⟩ := hp c.current.span
  refine expression_gives ⟨e', c.next, operand_ok.mpr (.inl ⟨?_, rfl⟩), ?_⟩
  · rw [htc, he']
  · exact hq hb hnext (by omega)

theorem recovers_group {s : Span} (h : Recovers e) : Recovers (.group e s) := by
  intro n p c w q hc hw hp hn hq
  obtain ⟨n, rfl⟩ := Nat.exists_eq_add_one_of_ne_zero (Nat.ne_zero_of_lt hn)
  simp only [Expr.terminals, parenthesized, List.cons_append, List.append_assoc] at hc
  rw [hc] at hn
  simp only [List.length_cons, List.length_append] at hn
  obtain ⟨hk, hnext⟩ := Cursor.ahead_symbol hc
  obtain ⟨e', c₁, he, hb, hc₁⟩ :=
    h.gives_default (n := n) hnext rfl (by rw [hnext]; simp; omega)
  obtain ⟨hk₁, hnext₁⟩ := Cursor.ahead_symbol hc₁
  refine expression_gives ⟨_, _, operand_ok.mpr (.inr (.inl ⟨hk, grouped_ok.mpr
    ⟨e', c₁, he, hk₁, rfl, rfl⟩⟩)), ?_⟩
  exact hq (by simp [Expr.bare, hb]) hnext₁ (by omega)

theorem recovers_prefixed {o : UnaryOperator} {s : Span} (h : Recovers e)
    (ho : o.isBehind = false) (he : .unary ≤ e.power) : Recovers (.unary o e s) := by
  intro n p c w q hc hw hp hn hq
  obtain ⟨n, rfl⟩ := Nat.exists_eq_add_one_of_ne_zero (Nat.ne_zero_of_lt hn)
  have hpow : (Expr.unary o e s).power = .unary := by simp [Expr.power, ho]
  have ht : Takes .unary e :=
    (BindingPower.lt_or_eq_of_le he).imp_right fun he => ⟨rfl, he.symm⟩
  simp only [Expr.terminals, ho, Bool.false_eq_true, if_false, List.cons_append] at hc
  rw [hc] at hn
  simp only [List.length_cons, List.length_append] at hn
  obtain ⟨hk, hnext⟩ := Cursor.ahead_symbol hc
  obtain ⟨e', c₁, he', hb, hc₁⟩ :=
    h.gives (n := n) hnext (hpow ▸ hw) ht (by rw [hnext]; simp; omega)
  refine expression_gives ⟨_, _, operand_ok.mpr (.inr (.inr (.inr ⟨o, ?_, prefixed_ok.mpr
    ⟨e', he', rfl⟩⟩))), ?_⟩
  · rw [hk, UnaryOperator.prefixOperator?_token ho]
  · exact hq (by simp [Expr.bare, hb]) hc₁ (by omega)

theorem recovers_stepped {step : Step} {s : Span} (h : Recovers e) (hs : step.isBefore = false)
    (he : .postfixed ≤ e.power) : Recovers (.unary (.step step) e s) := by
  intro n p c w q hc hw hp hn hq
  have hpow : (Expr.unary (.step step) e s).power = .postfixed := by
    simp [Expr.power, UnaryOperator.isBehind, hs]
  have hlt : p < .postfixed := by
    simpa [Takes, hpow] using hp
  simp only [Expr.terminals, UnaryOperator.isBehind, hs, Bool.not_false, if_true,
    List.append_assoc, List.singleton_append, UnaryOperator.token] at hc
  have hk := Step.postfixStep?_token hs
  have hb := TokenKind.bindingPower_of_postfixStep hk
  refine h hc (by rw [nextKind, Terminal.kind, hb]; exact he)
    (.inl (BindingPower.lt_of_lt_of_le hlt he)) hn ?_
  intro m e' c₁ hbare hc₁ hm
  obtain ⟨m, rfl⟩ := Nat.exists_eq_add_one_of_ne_zero (Nat.ne_zero_of_lt hm)
  obtain ⟨hk₁, hnext⟩ := Cursor.ahead_symbol hc₁
  rw [List.length_cons] at hm
  refine extended_gives (by rw [hk₁, hb]; exact hlt) ⟨_, _, continuation_ok.mpr
    (.inr (.inr (.inr (.inl ⟨step, by rw [hk₁, hk], stepped_ok.mpr ⟨rfl, rfl⟩⟩)))), ?_⟩
  exact hq (by simp [Expr.bare, hbare]) hnext (by omega)

theorem recovers_binary {o : BinaryOperator} {l r : Expr} {s : Span} (hl : Recovers l)
    (hr : Recovers r) (hlo : o.bindingPower ≤ l.power) (hro : o.bindingPower < r.power) :
    Recovers (.binary o l r s) := by
  intro n p c w q hc hw hp hn hq
  have hlt : p < o.bindingPower := by
    refine hp.resolve_right fun h => ?_
    exact absurd (h.2 ▸ o.bindingPower_lt_unary) (Nat.lt_irrefl _)
  simp only [Expr.terminals, List.append_assoc, List.cons_append] at hc
  have hk := o.binaryOperator?_token
  have hb := TokenKind.bindingPower_of_binaryOperator hk
  refine hl hc (by rw [nextKind, Terminal.kind, hb]; exact hlo)
    (.inl (BindingPower.lt_of_lt_of_le hlt hlo)) hn ?_
  intro m l' c₁ hbare hc₁ hm
  obtain ⟨m, rfl⟩ := Nat.exists_eq_add_one_of_ne_zero (Nat.ne_zero_of_lt hm)
  obtain ⟨hk₁, hnext⟩ := Cursor.ahead_symbol hc₁
  simp only [List.length_cons, List.length_append] at hm
  obtain ⟨r', c₂, hr', hbare', hc₂⟩ :=
    hr.gives (n := m) hnext hw (.inl hro) (by rw [hnext, List.length_append]; omega)
  refine extended_gives (by rw [hk₁, hb]; exact hlt) ⟨_, _, continuation_ok.mpr
    (.inr (.inr (.inr (.inr ⟨o, by rw [hk₁, hk], combined_ok.mpr ⟨r', hr', rfl⟩⟩)))), ?_⟩
  exact hq (by simp [Expr.bare, hbare, hbare']) hc₂ (by omega)

/-- The loop on a range operator goes on with the range. -/
theorem extended_ranged {a b : Expr} {x d : Bool} (hb : Recovers b) (hx : ¬ (x ∧ d))
    (hbo : .range < b.power) (hp : p < .range) (hw : (nextKind w).bindingPower ≤ .range)
    (hc : c.ahead = .symbol (rangeToken x d) :: (b.terminals separator ++ w))
    (hn : 3 * c.ahead.length < n)
    (hq : ∀ {m b' s c'}, b'.bare = b.bare → c'.ahead = w → 3 * w.length < m →
      Gives (extended m p (.range a b' x d none s)) c' q) :
    Gives (extended n p a) c q := by
  obtain ⟨n, rfl⟩ := Nat.exists_eq_add_one_of_ne_zero (Nat.ne_zero_of_lt hn)
  obtain ⟨hk, hnext⟩ := Cursor.ahead_symbol hc
  obtain ⟨hux, hdd⟩ := rangeToken_eq hx
  simp only [hc, List.length_cons, List.length_append] at hn
  obtain ⟨b', c₁, hb', hbare, hc₁⟩ :=
    hb.gives (n := n) hnext hw (.inl hbo) (by rw [hnext, List.length_append]; omega)
  have hkr : c.current.kind = .dotDot ∨ c.current.kind = .untilWord ∨
      c.current.kind = .downToWord := by
    rw [hk]
    cases x <;> cases d <;> simp [rangeToken]
  refine extended_gives (by rw [hk, bindingPower_rangeToken]; exact hp) ⟨_, _,
    continuation_ok.mpr (.inr (.inl ⟨hkr, ranged_ok.mpr ⟨b', hb', rfl⟩⟩)), ?_⟩
  rw [hk, hux, hdd]
  exact hq hbare hc₁ (by omega)

theorem recovers_range {a b : Expr} {x d : Bool} {step : Option Expr} {s : Span}
    (ha : Recovers a) (hb : Recovers b) (hs : ∀ e, step = some e → Recovers e)
    (hg : (Expr.range a b x d step s).Groups) (hx : ¬ (x ∧ d)) :
    Recovers (.range a b x d step s) := by
  obtain ⟨hao, hbo, hso⟩ := hg
  intro n p c w q hc hw hp hn hq
  have hlt : p < .range := by
    simpa [Takes, Expr.power] using hp
  simp only [Expr.terminals, List.append_assoc, List.cons_append] at hc
  refine ha hc (by rw [nextKind, Terminal.kind, bindingPower_rangeToken]; exact hao)
    (.inl (BindingPower.lt_of_lt_of_le hlt hao)) hn ?_
  intro m a' c₁ hbare hc₁ hm
  cases step with
  | none =>
    refine extended_ranged hb hx hbo hlt hw hc₁ (by rw [hc₁]; exact hm) ?_
    intro m b' t c₂ hbare' hc₂ hm
    exact hq (by simp [Expr.bare, Expr.bareOption, hbare, hbare']) hc₂ hm
  | some e =>
    refine extended_ranged hb hx hbo hlt (Nat.le_refl _) hc₁ (by rw [hc₁]; exact hm) ?_
    intro m b' t c₂ hbare' hc₂ hm
    obtain ⟨m, rfl⟩ := Nat.exists_eq_add_one_of_ne_zero (Nat.ne_zero_of_lt hm)
    have hs₂ : c₂.ahead = .symbol .stepWord :: (e.terminals separator ++ w) := hc₂
    obtain ⟨hk, hnext⟩ := Cursor.ahead_symbol hs₂
    simp only [Expr.stepTerminals, List.length_cons, List.length_append] at hm
    obtain ⟨e', c₃, he, hbare'', hc₃⟩ := Recovers.gives (n := m) (hs e rfl) hnext hw
      (.inl (hso e rfl)) (by rw [hnext, List.length_append]; omega)
    refine extended_gives (by rw [hk]; exact hlt) ⟨_, _, continuation_ok.mpr
      (.inr (.inr (.inl ⟨hk, rangeStep_ok.mpr ⟨a', b', x, d, t, e', rfl, he, rfl⟩⟩))), ?_⟩
    exact hq (by simp [Expr.bare, Expr.bareOption, hbare, hbare', hbare'']) hc₃ (by omega)

/-- Items with commas between, each of which its rule gives back, are given back up to
the parenthesis behind them. -/
theorem separated_gives {α : Type} {rule : Nat → Parser (List α)} {item : Nat → Parser α}
    (hrule : ∀ n, rule (n + 1) = separated (item n) (rule n)) (terminals : α → List Terminal)
    (bare : α → α) {as : List α}
    (hfirst : ∀ a ∈ as, ∀ u, nextKind (terminals a ++ u) ≠ .closeParen)
    (hitem : ∀ a ∈ as, ∀ {n c u}, c.ahead = terminals a ++ u →
      nextKind u = .comma ∨ nextKind u = .closeParen → 3 * c.ahead.length < n →
      Gives (item n) c fun a' c' => bare a' = bare a ∧ c'.ahead = u)
    (hc : c.ahead = separatedTerminals (as.map terminals) ++ .symbol .closeParen :: w)
    (hn : 3 * c.ahead.length + 1 < n) :
    Gives (rule n) c fun as' c' => as'.map bare = as.map bare ∧
      c'.ahead = .symbol .closeParen :: w := by
  induction as generalizing c n with
  | nil =>
    obtain ⟨n, rfl⟩ := Nat.exists_eq_add_one_of_ne_zero (Nat.ne_zero_of_lt hn)
    rw [hrule]
    exact ⟨[], c, separated_ok.mpr (.inl ⟨(Cursor.ahead_symbol hc).1, rfl, rfl⟩), rfl, hc⟩
  | cons a as ih =>
    obtain ⟨n, rfl⟩ := Nat.exists_eq_add_one_of_ne_zero (Nat.ne_zero_of_lt hn)
    rw [hrule]
    have hk : c.current.kind ≠ .closeParen := by
      rw [c.current_kind, hc]
      cases as <;> simpa [separatedTerminals] using hfirst a List.mem_cons_self _
    have hone : ∀ {u}, c.ahead = terminals a ++ u →
        nextKind u = .comma ∨ nextKind u = .closeParen →
        Gives (item n) c fun a' c' => bare a' = bare a ∧ c'.ahead = u :=
      fun hc hu => hitem a List.mem_cons_self hc hu (by omega)
    cases as with
    | nil =>
      obtain ⟨a', c₁, ha, hb, hc₁⟩ := hone hc (.inr rfl)
      have hk₁ := (Cursor.ahead_symbol hc₁).1
      refine ⟨[a'], c₁, separated_ok.mpr (.inr ⟨hk, a', c₁, ha, .inr ⟨?_, rfl, rfl⟩⟩), ?_, hc₁⟩
      · rw [hk₁]
        decide
      · rw [List.map_singleton, hb, List.map_singleton]
    | cons b bs =>
      simp only [List.map_cons, separatedTerminals, List.append_assoc, List.cons_append] at hc
      obtain ⟨a', c₁, ha, hb, hc₁⟩ := hone hc (.inl rfl)
      obtain ⟨hk₁, hnext⟩ := Cursor.ahead_symbol hc₁
      obtain ⟨bs', c₂, hbs, hb', hc₂⟩ := ih (n := n)
        (fun b hb => hfirst b (List.mem_cons_of_mem _ hb))
        (fun b hb => hitem b (List.mem_cons_of_mem _ hb)) hnext (by
          rw [hnext]
          simp only [hc, List.length_append, List.length_cons] at hn ⊢
          omega)
      refine ⟨a' :: bs', c₂, separated_ok.mpr (.inr ⟨hk, a', c₁, ha,
        .inl ⟨hk₁, bs', hbs, rfl⟩⟩), ?_, hc₂⟩
      rw [List.map_cons, hb, hb']
      rfl

theorem recovers_call {f : String} {es : List Expr} {s : Span} (h : ∀ e ∈ es, Recovers e)
    (hb : ∀ e ∈ es, ∀ u, nextKind (e.terminals separator ++ u) ≠ .closeParen) :
    Recovers (.call f es s) := by
  intro n p c w q hc hw hp hn hq
  have hlt : p < .call := by
    simpa [Takes, Expr.power] using hp
  simp only [Expr.terminals, parenthesized, List.cons_append, List.append_assoc,
    List.nil_append, Expr.terminalLists_eq] at hc
  obtain ⟨n, rfl⟩ := Nat.exists_eq_add_one_of_ne_zero (Nat.ne_zero_of_lt hn)
  simp only [hc, List.length_cons, List.length_append] at hn
  obtain ⟨n, rfl⟩ : ∃ m, n = m + 1 := ⟨n - 1, by omega⟩
  obtain ⟨hk, hf, hnext⟩ := Cursor.ahead_name hc
  obtain ⟨hk₁, hnext₁⟩ := Cursor.ahead_symbol hnext
  have hrule : ∀ n, arguments (n + 1) = separated (expression n .default) (arguments n) :=
    fun n => by rw [arguments]
  obtain ⟨es', c₂, hes, hbare, hc₂⟩ := separated_gives (n := n) hrule (Expr.terminals separator) Expr.bare hb
    (fun e he _ _ _ hc hu hn => Recovers.gives_default (h e he) hc (by
      rcases hu with hu | hu <;> rw [hu] <;> rfl) hn) hnext₁ (by
      simp only [hnext₁, List.length_append, List.length_cons]
      omega)
  obtain ⟨hk₂, hnext₂⟩ := Cursor.ahead_symbol hc₂
  refine expression_gives ⟨.name f c.current.span, c.next, operand_ok.mpr (.inl ⟨?_, rfl⟩), ?_⟩
  · rw [Token.terminal_eq_name hk, hf]
    rfl
  · refine extended_gives (by rw [hk₁]; exact hlt) ⟨_, _, continuation_ok.mpr (.inl ⟨hk₁,
      called_ok.mpr ⟨f, c.current.span, es', c₂, rfl, hes, hk₂, rfl, rfl⟩⟩), ?_⟩
    exact hq (by simp [Expr.bare, Expr.bareList_eq, hbare]) hnext₂ (by omega)

end Grammar

end ScriptLang
