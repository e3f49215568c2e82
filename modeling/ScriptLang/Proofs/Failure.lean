import ScriptLang.Proofs.Codegen.Totality
import ScriptLang.Proofs.Evaluation.Stopping
import ScriptLang.Proofs.Grammar.WellFormed

/-!
# What can fail behind the parser

A program that was parsed is well-formed, and little can go wrong with it any more. A run
stops early on a missing `main` or on a number it computed, code is generated unless
`main` is missing, and neither ever lacks a value that a statement needs.
-/

namespace ScriptLang

/-- Whatever is known of variables and functions, an assignment finds a value to assign
unless it steps, and a declaration finds its type, or a value to tell it. -/
def Stmt.Supplied : Stmt → Prop
  | .declare _ _ type value _ =>
    (∀ call laps s v t, Eval.evaluateOption call laps value s = .ok v t →
      type.isSome ∨ v.isSome) ∧
    ∀ g v g', Gen.option value g = .ok v g' → type.isSome ∨ v.isSome
  | .assign _ operator value _ =>
    (∀ call laps s v t, Eval.evaluateOption call laps value s = .ok v t →
      (v.isNone ↔ operator.isStep)) ∧
    ∀ g v g', Gen.option value g = .ok v g' → (v.isNone ↔ operator.isStep)
  | _ => True

def supplied : NodeProperty := ⟨fun _ => True, Stmt.Supplied⟩

theorem Eval.isNone_of_evaluateOption {call : Invocation} {laps : Nat} {e : Option Expr}
    {v : Option Value} {s t : Evaluation} (h : evaluateOption call laps e s = .ok v t) :
    v.isNone = e.isNone := by
  cases e with
  | none =>
    cases h
    rfl
  | some e =>
    obtain ⟨a, -, rfl⟩ := map_ok.mp h
    rfl

theorem Gen.isNone_of_option {e : Option Expr} {v : Option ValueType} {g g' : Generator}
    (h : option e g = .ok v g') : v.isNone = e.isNone := by
  cases e with
  | none =>
    cases h
    rfl
  | some e =>
    obtain ⟨a, -, rfl⟩ := map_ok.mp h
    rfl

theorem Stmt.WellFormed.supplied {b : Stmt} (h : b.WellFormed) : b.Supplied := by
  cases b with
  | declare name constant type value span =>
    have hv : ∀ {α : Type} {v : Option α}, v.isNone = value.isNone → type.isSome ∨ v.isSome := by
      intro α v hv
      rw [← Option.not_isNone v, hv, Option.not_isNone]
      exact h
    exact ⟨fun _ _ _ _ _ hx => hv (Eval.isNone_of_evaluateOption hx),
      fun _ _ _ hx => hv (Gen.isNone_of_option hx)⟩
  | assign target operator value span =>
    have hv : ∀ {α : Type} {v : Option α}, v.isNone = value.isNone →
        (v.isNone ↔ operator.isStep) := by
      intro α v hv
      rw [hv]
      exact h
    exact ⟨fun _ _ _ _ _ hx => hv (Eval.isNone_of_evaluateOption hx),
      fun _ _ _ hx => hv (Gen.isNone_of_option hx)⟩
  | _ => trivial

namespace Program

/-- A program that was parsed is well-formed, and no statement of it lacks a value, where it
is run or where code is generated for it. A run fails on a missing `main` or on a number it
computed, and compilation fails exactly if no function is `main`. -/
theorem fails_only_of_ofTokens {tokens : List Token} {file : String} {p : Program}
    (h : ofTokens tokens file = .ok p) :
    wellFormed.InProgram p ∧ supplied.InProgram p ∧
    (∀ fuel f s, p.run fuel = .error (.fault f) s →
      f.cause = .missingMain ∨ f.cause.IsArithmetic) ∧
    (∀ fuel t t' s s' b, p.Starts fuel t s → Eval.Reaches t s t' s' →
      t'.activity = .statement b → b.WellFormed ∧ b.Supplied) ∧
    (∀ f, p.compile = .error f ↔
      f = ⟨.missingMain, p.span.start⟩ ∧ ∀ g ∈ p.functions, g.name ≠ "main") ∧
    ∀ source, Token.ofSource source file = .ok tokens → ∀ halt,
      compileSource source file = .error halt ↔
        halt = .fault ⟨.missingMain, p.span.start⟩ ∧ ∀ g ∈ p.functions, g.name ≠ "main" := by
  have hwf := ofTokens_wellFormed h
  have hsupplied : supplied.InProgram p :=
    NodeProperty.inStmts_mono (fun _ _ => trivial) (fun _ => Stmt.WellFormed.supplied) _ hwf
  refine ⟨hwf, hsupplied, fun _ _ _ => cause_of_run hwf, ?_, fun _ => compile_error_iff hwf, ?_⟩
  · intro fuel t t' s s' b hs hr hb
    have hfits := fits_of_reaches hwf hs hr
    rw [hb] at hfits
    have hstmt : b.WellFormed := NodeProperty.stmt_of_inStmt hfits
    exact ⟨hstmt, hstmt.supplied⟩
  · intro source hsource halt
    have hp : ofSource source file = .ok p := by
      rw [ofSource, hsource]
      exact h
    exact compileSource_error_iff hp hwf

/-- The tokens of `for (i in (a until b)) total += i;` in a program without functions. -/
theorem fails_only_of_ofTokens_for :
    let tokens : List Token :=
      [⟨.forWord, "for", default⟩, ⟨.openParen, "(", default⟩, ⟨.identifier, "i", default⟩,
        ⟨.inWord, "in", default⟩, ⟨.openParen, "(", default⟩, ⟨.identifier, "a", default⟩,
        ⟨.untilWord, "until", default⟩, ⟨.identifier, "b", default⟩, ⟨.closeParen, ")", default⟩,
        ⟨.closeParen, ")", default⟩, ⟨.identifier, "total", default⟩,
        ⟨.plusEquals, "+=", default⟩, ⟨.identifier, "i", default⟩, ⟨.semicolon, ";", default⟩]
    let p : Program := ⟨[.forLoop "i"
      (.group (.range (.name "a" default) (.name "b" default) true false none default) default)
      (.assign "total" (.combine .add) (some (.name "i" default)) default) default], default⟩
    ofTokens tokens "" = .ok p ∧ wellFormed.InProgram p ∧ supplied.InProgram p ∧
      (∀ fuel f s, p.run fuel = .error (.fault f) s →
        f.cause = .missingMain ∨ f.cause.IsArithmetic) ∧
      p.compile = .error ⟨.missingMain, default⟩ := by
  intro tokens p
  have h : ofTokens tokens "" = .ok p := rfl
  obtain ⟨hwf, hsupplied, hrun, -, hcompile, -⟩ := fails_only_of_ofTokens h
  exact ⟨h, hwf, hsupplied, hrun, (hcompile _).mpr ⟨rfl, nofun⟩⟩

end Program

end ScriptLang
