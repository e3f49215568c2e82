import ScriptLang.Proofs.Codegen.Expression
import ScriptLang.Proofs.Evaluation.Typing

/-!
# Evaluation and generation agree on types

Both follow the same judgment, so what evaluation finds out about an expression by
running it, the type of its value and what is wrong with it, generation knows before.
-/

namespace ScriptLang

/-- The variable is there on both sides, with the same mutability, in a slot of the type
its value has; and the value fits the declared type. -/
def Agrees (s : Evaluation) (g : Generator) (name : String) : Prop :=
  ∃ b slot, s.environment.find? name = some b ∧ g.find? name = some slot ∧
    slot.typing = b.typing ∧ b.Consistent

/-- The variables both sides agree on. -/
def commonTypings (s : Evaluation) (g : Generator) : Typings := fun name =>
  match s.environment.find? name, g.find? name with
  | some b, some slot => if slot.typing = b.typing ∧ b.Consistent then some b.typing else none
  | _, _ => none

variable {s s' : Evaluation} {g g' : Generator}

theorem commonTypings_eq_some {name : String} {k : Typing} :
    commonTypings s g name = some k ↔
      ∃ b slot, s.environment.find? name = some b ∧ g.find? name = some slot ∧
        slot.typing = b.typing ∧ b.Consistent ∧ b.typing = k := by
  unfold commonTypings
  constructor
  · intro h
    split at h
    · next b slot hb hs =>
      split at h
      · next hc => exact ⟨b, slot, hb, hs, hc.1, hc.2, Option.some.inj h⟩
      · cases h
    · cases h
  · rintro ⟨b, slot, hb, hs, ht, hc, rfl⟩
    rw [hb, hs]
    exact if_pos ⟨ht, hc⟩

theorem agrees_iff {name : String} : Agrees s g name ↔ ∃ k, commonTypings s g name = some k := by
  constructor
  · rintro ⟨b, slot, hb, hs, ht, hc⟩
    exact ⟨_, commonTypings_eq_some.mpr ⟨b, slot, hb, hs, ht, hc, rfl⟩⟩
  · rintro ⟨k, hk⟩
    obtain ⟨b, slot, hb, hs, ht, hc, -⟩ := commonTypings_eq_some.mp hk
    exact ⟨b, slot, hb, hs, ht, hc⟩

theorem Environment.knows_commonTypings : s.environment.Knows (commonTypings s g) := by
  intro name k hk
  obtain ⟨b, _, hb, -, -, hc, ht⟩ := commonTypings_eq_some.mp hk
  exact ⟨b, hb, ht, hc⟩

theorem Generator.knows_commonTypings : g.Knows (commonTypings s g) := by
  intro name k hk
  obtain ⟨b, slot, -, hs, hst, -, ht⟩ := commonTypings_eq_some.mp hk
  exact ⟨slot, hs, hst.trans ht⟩

/-- Two states that know what two others agreed on agree on it themselves. -/
theorem Agrees.of_knows {name : String} (h : Agrees s g name)
    (hs : s'.environment.Knows (commonTypings s g)) (hg : g'.Knows (commonTypings s g)) :
    Agrees s' g' name := by
  obtain ⟨k, hk⟩ := agrees_iff.mp h
  obtain ⟨b, hb, hbk, hc⟩ := hs name k hk
  obtain ⟨slot, hslot, hsk⟩ := hg name k hk
  exact ⟨b, slot, hb, hslot, hsk.trans hbk.symm, hc⟩

/-- An expression without calls and `run` blocks whose names both sides agree on: if it
has a value, its code has the type of that value, both sides report the same faults in
the same order, and they agree behind it on all they agreed on. -/
theorem Agrees.expression_of_evaluate {call : Invocation} {laps : Nat} {e : Expr} {v : Value}
    (he : (plain (Agrees s g)).InExpr e) (hv : Eval.evaluate call laps e s = .ok v s') :
    ∃ ds g', Gen.expression e g = .ok v.type g' ∧
      s'.diagnostics = s.diagnostics ++ ds ∧ g'.diagnostics = g.diagnostics ++ ds ∧
      ∀ name, Agrees s g name → Agrees s' g' name := by
  obtain ⟨t, ds, ht⟩ := Types.total (fun _ h => agrees_iff.mp h) e he
  obtain ⟨rfl, hd, hs⟩ :=
    Eval.ensures_evaluate call laps ht Environment.knows_commonTypings v s' hv
  obtain ⟨_, g', hg, rfl, ha⟩ := Gen.yields_expression ht Generator.knows_commonTypings
  exact ⟨ds, g', hg, hd, ha.diagnostics, fun name h =>
    h.of_knows hs (ha.knows Generator.knows_commonTypings)⟩

/-- Stepping a `val` and ending a range at a string: `k++ .. "t"`. -/
theorem Agrees.expression_of_evaluate_range :
    let s : Evaluation :=
      { Evaluation.new with environment := Environment.new.declare "k" (.integer 2) .int false }
    let g : Generator :=
      { Generator.new with globals := NameMap.empty.insert "k" ⟨.cell "k", .integer, false⟩ }
    let e : Expr := .range (.unary (.step .postIncrement) (.name "k" default) default)
      (.string "t" default) false false none default
    let ds : List Fault :=
      [⟨.valReassignment "k", default⟩, ⟨.typeMatch "Int" "String", default⟩]
    (plain (Agrees s g)).InExpr e ∧
      Eval.evaluate (fun _ _ _ => Eval.outOfFuel) 0 e s =
        .ok (.range 2 0) { s with diagnostics := ds } ∧
      ∃ ds' g', Gen.expression e g = .ok .range g' ∧ ds = ds' ∧
        g'.diagnostics = ds' ∧ Agrees { s with diagnostics := ds } g' "k" := by
  intro s g e ds
  have hk : Agrees s g "k" := ⟨_, _, rfl, rfl, rfl, .inl rfl⟩
  have he : (plain (Agrees s g)).InExpr e := ⟨trivial, ⟨trivial, hk⟩, trivial, trivial⟩
  have hv : Eval.evaluate (fun _ _ _ => Eval.outOfFuel) 0 e s =
      .ok (.range 2 0) { s with diagnostics := ds } := rfl
  obtain ⟨ds', g', hg, hs', hg', ha⟩ :=
    Agrees.expression_of_evaluate he hv
  exact ⟨he, hv, ds', g', hg, hs', hg', ha "k" hk⟩

end ScriptLang
