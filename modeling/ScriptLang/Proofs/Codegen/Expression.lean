import ScriptLang.Codegen.Generator
import ScriptLang.Proofs.Codegen.Operation

/-!
# Code for expressions follows their types

Where the variables known to the judgment have slots, code is generated for every
expression it covers; the type and the faults are the ones the judgment tells.
-/

namespace ScriptLang

namespace Generator

/-- Each known variable has a slot that is as it is known. -/
def Knows (Γ : Typings) (g : Generator) : Prop :=
  ∀ name k, Γ name = some k → ∃ slot, g.find? name = some slot ∧ slot.typing = k

theorem Adds.knows {Γ : Typings} {ds : List Fault} {g g' : Generator} (h : Adds ds g g')
    (hg : g.Knows Γ) : g'.Knows Γ := by
  intro name k hk
  obtain ⟨slot, hs, ht⟩ := hg name k hk
  exact ⟨slot, by rw [h.find?, hs], ht⟩

end Generator

namespace Gen

variable {Γ : Typings} {g : Generator} {e : Expr} {t : ValueType} {ds : List Fault}

theorem yields_expression (h : Types Γ e t ds) (hg : g.Knows Γ) :
    Yields (· = t) ds (expression e) g := by
  induction h generalizing g with
  | integer =>
    rw [expression]
    exact (quiet_emit _).yields fun _ _ => .pure rfl
  | float =>
    rw [expression]
    exact (quiet_internFloat _).yields fun _ _ => (quiet_emit _).yields fun _ _ => .pure rfl
  | boolean =>
    rw [expression]
    exact (quiet_emit _).yields fun _ _ => .pure rfl
  | string =>
    rw [expression]
    exact (quiet_internString _).yields fun _ _ => (quiet_emit _).yields fun _ _ => .pure rfl
  | name hk =>
    obtain ⟨slot, hs, rfl⟩ := hg _ _ hk
    rw [expression]
    refine (yields_resolve hs _).bind fun found _ hf _ => ?_
    rw [hf]
    exact (quiet_emit _).yields fun _ _ => .pure rfl
  | group _ ih =>
    rw [expression]
    exact ih hg
  | @binary o l r span t u ds es _ _ ihl ihr =>
    rw [expression]
    refine (ihl hg).bind fun left g₁ hl h₁ => ?_
    -- The left operand is in a slot of its type while the right one is computed.
    refine (yields_spill left g₁).follow fun slot g₂ hs h₂ => ?_
    refine (ihr (h₂.knows (h₁.knows hg))).bind fun right g₃ hr _ => ?_
    rw [← hl, ← hr, ← hs]
    exact yields_emitBinary o slot right span.start g₃
  | @unary o e span t ds hplain _ ih =>
    have ho : Yields (· = o.resultType t) (ds ++ faultsAt (o.objection t) span.start) (do
        emitUnary o (← expression e) span.start) g := by
      refine (ih hg).bind fun operand g' ht _ => ?_
      rw [← ht]
      exact yields_emitUnary o operand span.start g'
    cases o with
    | step s => exact absurd rfl (hplain s)
    | _ => exact ho
  | @step s e span t ds he ih =>
    rw [expression]
    cases hn : e.ungroup.name? with
    | none =>
      rw [stepObjection_of_none hn, faultsAt_none, List.append_nil]
      exact ih hg
    | some name =>
      obtain ⟨k, hk, rfl, rfl⟩ := he.of_name? hn
      obtain ⟨slot, hs, rfl⟩ := hg name k hk
      rw [stepObjection_of_some hn hk, List.nil_append]
      exact yields_emitStepValue s hs span.start
  | @range a b excludes descending c span t u ds es _ _ iha ihb =>
    rw [expression]
    refine (iha hg).bind fun first g₁ ha h₁ => ?_
    rw [ha]
    refine (yields_emitCoercion t .integer _ g₁).bind fun _ g₂ _ h₂ => ?_
    refine (quiet_spill .integer g₂).follow fun _ g₃ _ h₃ => ?_
    refine (ihb (h₃.knows (h₂.knows (h₁.knows hg)))).bind fun second g₄ hb _ => ?_
    rw [hb]
    refine (yields_emitCoercion u .integer _ g₄).finish fun _ _ _ _ => ?_
    exact (quiet_emit _).yields fun _ _ => .pure rfl

end Gen

end ScriptLang
