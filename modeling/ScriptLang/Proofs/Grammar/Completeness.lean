import ScriptLang.Proofs.Grammar.Recovery.Statement

/-!
# Printed programs are read back

Every form of expression and statement that is printed without further parentheses
is read back, by induction on the tree; and so is the program.
-/

namespace ScriptLang

namespace Grammar

variable {digits : Float → String}

mutual

theorem recovers : ∀ {e : Expr}, (printable digits).InExpr e → Recovers e
  | .integer n _, _ => recovers_primary rfl fun t => ⟨.integer n t, rfl, rfl⟩
  | .float x _, _ => recovers_primary rfl fun t => ⟨.float x t, rfl, rfl⟩
  | .boolean b _, _ => by cases b <;> exact recovers_primary rfl fun t => ⟨.boolean _ t, rfl, rfl⟩
  | .string s _, _ => recovers_primary rfl fun t => ⟨.string s t, rfl, rfl⟩
  | .name n _, _ => recovers_primary rfl fun t => ⟨.name n t, rfl, rfl⟩
  | .binary .., h => recovers_binary (recovers h.2.1) (recovers h.2.2) h.1.1.1 h.1.1.2
  | .unary o e _, h => by
    have hg : (if o.isBehind then BindingPower.postfixed else .unary) ≤ e.power := h.1.1
    cases ho : o.isBehind with
    | false => exact recovers_prefixed (recovers h.2) ho (by simpa [ho] using hg)
    | true =>
      cases o with
      | step s =>
        exact recovers_stepped (recovers h.2) (by simpa [UnaryOperator.isBehind] using ho)
          (by simpa [ho] using hg)
      | _ => cases ho
  | .group .., h => recovers_group (recovers h.2)
  | .call .., h => recovers_call (recoversAll h.2) fun e _ u hk => by
    have := beginsOperand_terminals separator e u
    rw [hk] at this
    cases this
  | .range .., h =>
    recovers_range (recovers h.2.1) (recovers h.2.2.1) (recoversOption h.2.2.2) h.1.1 h.1.2
  | .run ⟨_, _⟩ _, h => recovers_run (formsAll h.2)

theorem recoversAll : ∀ {es : List Expr}, (printable digits).InExprs es → ∀ e ∈ es, Recovers e
  | [], _ => by simp
  | _ :: _, h => List.forall_mem_cons.mpr ⟨recovers h.1, recoversAll h.2⟩

theorem recoversOption : ∀ {v : Option Expr}, (printable digits).InOption v →
    ∀ e, v = some e → Recovers e
  | none, _ => by simp
  | some _, h => fun _ he => Option.some.inj he ▸ recovers h

theorem forms : ∀ {s : Stmt}, (printable digits).InStmt s → Forms s
  | .declare .., h => forms_declare (recoversOption h.2) h.1
  | .assign .., h => forms_assign (recoversOption h.2) h.1
  | .print .., h => forms_print (recoversOption h.2)
  | .block ⟨_, _⟩, h => forms_block (formsAll h.2)
  | .branch .., h => forms_branch (recovers h.2.1) (forms h.2.2.1) (formsElse h.2.2.2) h.1
  | .whileLoop .., h => forms_whileLoop (recovers h.2.1) (forms h.2.2)
  | .doWhile .., h => forms_doWhile (recovers h.2.2) (forms h.2.1)
  | .forLoop .., h => forms_forLoop (recovers h.2.1) (forms h.2.2) h.1
  | .function ⟨_, _, _, ⟨_, _⟩, _⟩, h => forms_function (formsAll h.2)
  | .return .., h => forms_return (recoversOption h.2)
  | .break _, _ => forms_break
  | .continue _, _ => forms_continue
  | .expression _, h => forms_expression (recovers h.2) h.1

theorem formsElse : ∀ {b : Option Stmt}, (printable digits).InElse b → ∀ s, b = some s → Forms s
  | none, _ => by simp
  | some _, h => fun _ hs => Option.some.inj hs ▸ forms h

theorem formsAll : ∀ {body : List Stmt}, (printable digits).InStmts body → ∀ s ∈ body, Forms s
  | [], _ => by simp
  | _ :: _, h => List.forall_mem_cons.mpr ⟨forms h.1, formsAll h.2⟩

end

end Grammar

/-- Tokens that spell the terminals of a program are read as that program. -/
theorem Program.ofTokens_of_terminals {digits : Float → String} {p : Program}
    (h : (printable digits).InProgram p) {tokens : List Token} (file : String)
    (ht : tokens.map Token.terminal = p.terminals separator ++ [.symbol .eof]) :
    ∃ q, Program.ofTokens tokens file = .ok q ∧ q.bare = p.bare := by
  obtain ⟨c, hc⟩ : ∃ c, c = Cursor.ofTokens tokens file := ⟨_, rfl⟩
  have ha : c.ahead = p.terminals separator ++ [] := by
    rw [hc, Cursor.ahead_ofTokens file ht, List.append_nil]
  obtain ⟨body, c', hb, hbare, -⟩ := Grammar.statements_gives (n := c.fuel)
    (Grammar.formsAll h) (.inr rfl) ha rfl (by
      rw [Cursor.ahead, List.length_map, Cursor.fuel]
      omega)
  refine ⟨⟨body, ⟨.origin file, c'.position⟩⟩, ?_, by rw [bare, bare, hbare]⟩
  have hf : Parser.fueled (Grammar.statements · .eof) c = .ok body c' := hb
  rw [hc] at hf
  rw [ofTokens, hf]

/-- A program whose operators group without further parentheses is read back, up to
spans, from the tokens it is printed as. -/
theorem Program.ofTokens_print {digits : Float → String} {p : Program}
    (h : (printable digits).InProgram p) (spans : Nat → Span) (file : String) :
    ∃ q, Program.ofTokens (p.print digits spans) file = .ok q ∧ q.bare = p.bare :=
  ofTokens_of_terminals h file (map_terminal_print h spans)

/-- The tokens of `if (a - 1 * b > 0.5) { f(a); } else c++;` are read back. -/
theorem Program.ofTokens_print_branch :
    let p : Program := ⟨[.branch (.binary (.comparison .greater)
        (.binary (.arithmetic .subtract) (.name "a" default)
          (.binary (.arithmetic .multiply) (.integer 1 default) (.name "b" default) default)
          default)
        (.float (Number.ofDecimal false 5 (-1)) default) default)
      (.block ⟨[.expression (.call "f" [.name "a" default] default)], default⟩)
      (some (.assign "c" (.step .postIncrement) none default)) default], default⟩
    (printable fun _ => "0.5").InProgram p ∧
      ∃ q, Program.ofTokens (p.print (fun _ => "0.5") fun _ => default) "" = .ok q ∧
        q.bare = p.bare := by
  intro p
  have htest : (printable fun _ => "0.5").InExpr (.binary (.comparison .greater)
      (.binary (.arithmetic .subtract) (.name "a" default)
        (.binary (.arithmetic .multiply) (.integer 1 default) (.name "b" default) default) default)
      (.float (Number.ofDecimal false 5 (-1)) default) default) := by
    refine ⟨⟨⟨by decide, by decide⟩, trivial⟩, ?_, trivial, rfl⟩
    refine ⟨⟨⟨by decide, by decide⟩, trivial⟩, ⟨trivial, trivial⟩, ?_⟩
    exact ⟨⟨⟨by decide, by decide⟩, trivial⟩, ⟨trivial, (by decide : (0 : Int64) ≤ 1)⟩,
      trivial, trivial⟩
  have hcall : (printable fun _ => "0.5").InStmt
      (.expression (.call "f" [.name "a" default] default)) :=
    ⟨Bool.false_ne_true, ⟨trivial, trivial⟩, ⟨trivial, trivial⟩, trivial⟩
  have hstep : (printable fun _ => "0.5").InStmt
      (.assign "c" (.step .postIncrement) none default) :=
    ⟨⟨fun _ => rfl, fun _ => rfl⟩, trivial⟩
  have h : (printable fun _ => "0.5").InProgram p :=
    ⟨⟨fun _ => Bool.false_ne_true, htest, ⟨trivial, hcall, trivial⟩, hstep⟩, trivial⟩
  exact ⟨h, Program.ofTokens_print h _ _⟩

end ScriptLang
