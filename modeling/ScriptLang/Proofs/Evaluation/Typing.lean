import ScriptLang.Evaluation.Evaluator
import ScriptLang.Proofs.Computation
import ScriptLang.Proofs.Environment
import ScriptLang.Proofs.Typing.Judgment

/-!
# Evaluation follows the types

Where the variables known to the judgment hold values that fit, an expression it
covers evaluates to a value of the type it tells, if to any, and reports the faults
it tells. The variables go on to hold values of the same types.
-/

namespace ScriptLang

/-- Each known variable holds a value that fits and is as it is known. -/
def Environment.Knows (Γ : Typings) (e : Environment) : Prop :=
  ∀ name k, Γ name = some k → ∃ b, e.find? name = some b ∧ b.typing = k ∧ b.Consistent

/-- Storing a number of the type that is there changes nothing that is known. -/
theorem Environment.Knows.update {Γ : Typings} {e e' : Environment} {name : String}
    {value : Value} {k : Typing} (he : e.Knows Γ) (hk : Γ name = some k)
    (ht : value.type = k.type) (hn : k.type.isNumeric = true)
    (hu : e.update name value = .ok e') : e'.Knows Γ := by
  obtain ⟨b, hb, -, hf⟩ := find?_update hu
  intro other l hl
  by_cases ho : other = name
  · obtain ⟨c, hc, rfl, hcons⟩ := he name k hk
    obtain rfl : b = c := Option.some.inj (hb.symm.trans hc)
    obtain rfl : b.typing = l := by
      rw [ho, hk] at hl
      exact Option.some.inj hl
    obtain ⟨hw, hd⟩ := hcons.widen ht (by rw [ht]; exact hn)
    refine ⟨_, by rw [hf, if_pos ho], ?_, .inl (hw.trans hd)⟩
    rw [Binding.typing, hw, ht]
    rfl
  · obtain ⟨c, hc, h⟩ := he other l hl
    exact ⟨c, by rw [hf, if_neg ho, hc], h⟩

namespace Eval

variable {α β : Type} {Γ : Typings} {p : α → Prop} {q : β → Prop} {ds es : List Fault}
  {s : Evaluation}

/-- Started in a state, the computation gives a result with a property, if any; it adds
these faults, and what is known of variables stays true. -/
def Ensures (Γ : Typings) (p : α → Prop) (ds : List Fault) (x : Eval α) (s : Evaluation) : Prop :=
  ∀ a s', x s = .ok a s' →
    p a ∧ s'.diagnostics = s.diagnostics ++ ds ∧ s'.environment.Knows Γ

namespace Ensures

theorem pure {a : α} (hs : s.environment.Knows Γ) (h : p a) :
    Ensures Γ p [] (Pure.pure a) s := by
  intro b s' hb
  obtain ⟨rfl, rfl⟩ := pure_ok.mp hb
  exact ⟨h, (List.append_nil _).symm, hs⟩

theorem bind {x : Eval α} {f : α → Eval β} (hx : Ensures Γ p ds x s)
    (hf : ∀ a s', p a → s'.environment.Knows Γ → Ensures Γ q es (f a) s') :
    Ensures Γ q (ds ++ es) (x >>= f) s := by
  intro b s'' h
  obtain ⟨a, s', ha, hb⟩ := bind_ok.mp h
  obtain ⟨hp, hd, hs⟩ := hx a s' ha
  obtain ⟨hq, hd', hs'⟩ := hf a s' hp hs b s'' hb
  exact ⟨hq, by rw [hd', hd, List.append_assoc], hs'⟩

theorem bindGet {f : Evaluation → Eval β} (h : Ensures Γ q ds (f s) s) :
    Ensures Γ q ds (get >>= f) s := h

/-- What comes last reports nothing. -/
theorem finish {x : Eval α} {f : α → Eval β} (hx : Ensures Γ p ds x s)
    (hf : ∀ a s', p a → s'.environment.Knows Γ → Ensures Γ q [] (f a) s') :
    Ensures Γ q ds (x >>= f) s := by
  have h := bind hx hf
  rwa [List.append_nil] at h

end Ensures

theorem ensures_report (hs : s.environment.Knows Γ) (cause : Cause) (position : Position) :
    Ensures Γ (fun _ => True) [⟨cause, position⟩] (report cause position) s := by
  intro _ s' h
  cases h
  exact ⟨trivial, rfl, hs⟩

/-- An outcome is settled with the faults of its objection. -/
theorem ensures_settle {o : Outcome} {objection : Option Cause} {type : ValueType}
    (hs : s.environment.Knows Γ) (ho : o.Follows objection type) (position : Position) :
    Ensures Γ (fun v => v.type = type) (faultsAt objection position) (settle position o) s := by
  cases o with
  | value v =>
    obtain ⟨rfl, ht⟩ := ho
    exact .pure hs ht
  | reported cause v =>
    obtain ⟨rfl, ht⟩ := ho
    exact (ensures_report hs cause position).finish fun _ _ _ hs' => .pure hs' ht
  | failed cause =>
    intro _ _ h
    cases h

theorem ensures_toBound (hs : s.environment.Knows Γ) (v : Value) (position : Position) :
    Ensures Γ (fun _ => True) (faultsAt (v.type.conversionObjection .integer) position)
      (toBound v position) s := by
  cases v with
  | integer n => exact .pure hs trivial
  | float x => exact .pure hs trivial
  | _ => exact (ensures_report hs _ position).finish fun _ _ _ hs' => .pure hs' trivial

theorem ensures_read {name : String} {k : Typing} (hs : s.environment.Knows Γ)
    (hk : Γ name = some k) (position : Position) :
    Ensures Γ (fun v => v.type = k.type) [] (read name position) s := by
  obtain ⟨b, hb, rfl, -⟩ := hs name k hk
  refine .bindGet ?_
  rw [hb]
  exact .pure hs rfl

/-- A number is stored in a `var`, and in a `val` not but with an objection. -/
theorem ensures_store {name : String} {v : Value} {k : Typing} (hs : s.environment.Knows Γ)
    (hk : Γ name = some k) (ht : v.type = k.type) (hn : k.type.isNumeric = true)
    (position : Position) :
    Ensures Γ (fun _ => True) (faultsAt (k.stepObjection name) position)
      (store name v position) s := by
  obtain ⟨b, hb, rfl, -⟩ := hs name k hk
  refine .bindGet ?_
  have hu : s.environment.update name v = if b.mutable = true then
      .ok ⟨Environment.storeIn name v s.environment.scopes⟩ else .error .immutable := by
    rw [Environment.update, hb]
  rw [Typing.stepObjection, hn, Bool.true_and]
  cases hm : b.mutable with
  | true =>
    rw [hm, if_pos rfl] at hu
    rw [hu]
    intro _ s' h
    cases h
    have hd : (!b.typing.mutable) = false := by rw [Binding.typing, hm]; rfl
    rw [hd]
    exact ⟨trivial, (List.append_nil _).symm, hs.update hk ht hn hu⟩
  | false =>
    rw [hm, if_neg Bool.false_ne_true] at hu
    rw [hu]
    have hd : (!b.typing.mutable) = true := by rw [Binding.typing, hm]; rfl
    rw [hd]
    exact ensures_report hs (.valReassignment name) position

theorem ensures_stepNamed {e : Expr} {old : Value} {t : ValueType} {ds : List Fault}
    (h : Types Γ e t ds) (hs : s.environment.Knows Γ) (ht : old.type = t) (step : Step)
    (position : Position) :
    Ensures Γ (fun v => v.type = t) (faultsAt (stepObjection Γ e) position)
      (stepNamed step e.ungroup.name? old position) s := by
  unfold stepNamed
  cases hn : e.ungroup.name? with
  | none =>
    rw [stepObjection_of_none hn]
    exact .pure hs ht
  | some name =>
    obtain ⟨k, hk, rfl, -⟩ := h.of_name? hn
    rw [stepObjection_of_some hn hk]
    cases hnew : step.apply? old with
    | none =>
      have hnum : k.type.isNumeric = false := by rw [← ht, Step.not_isNumeric_of_apply? hnew]
      rw [Typing.stepObjection, hnum]
      exact .pure hs ht
    | some new =>
      obtain ⟨htn, hnum⟩ := Step.type_of_apply? hnew
      rw [ht] at htn hnum
      refine (ensures_store hs hk htn hnum position).finish fun _ _ _ hs' => .pure hs' ?_
      cases step.isBefore with
      | false => exact ht
      | true => exact htn

variable (call : Invocation) (laps : Nat)

theorem ensures_evaluate {e : Expr} {t : ValueType} (h : Types Γ e t ds)
    (hs : s.environment.Knows Γ) :
    Ensures Γ (fun v => v.type = t) ds (evaluate call laps e) s := by
  induction h generalizing s with
  | integer =>
    rw [evaluate]
    exact .pure hs rfl
  | float =>
    rw [evaluate]
    exact .pure hs rfl
  | boolean =>
    rw [evaluate]
    exact .pure hs rfl
  | string =>
    rw [evaluate]
    exact .pure hs rfl
  | name hk =>
    rw [evaluate]
    exact ensures_read hs hk _
  | group _ ih =>
    rw [evaluate]
    exact ih hs
  | @binary o l r span t u ds es _ _ ihl ihr =>
    rw [evaluate]
    refine (ihl hs).bind fun left s₁ hl hs₁ => ?_
    refine (ihr hs₁).bind fun right s₂ hr hs₂ => ?_
    rw [← hl, ← hr]
    exact ensures_settle hs₂ (o.apply_follows left right) span.start
  | @unary o e span t ds hplain _ ih =>
    have ho : Ensures Γ (fun v => v.type = o.resultType t)
        (ds ++ faultsAt (o.objection t) span.start) (do
          settle span.start (o.apply (← evaluate call laps e))) s := by
      refine (ih hs).bind fun v s' ht hs' => ?_
      rw [← ht]
      exact ensures_settle hs' (o.apply_follows v) span.start
    cases o with
    | step s => exact absurd rfl (hplain s)
    | _ => exact ho
  | @step step e span t ds he ih =>
    rw [evaluate]
    exact (ih hs).bind fun old s' ht hs' => ensures_stepNamed he hs' ht step span.start
  | @range a b excludes descending c span t u ds es _ _ iha ihb =>
    rw [evaluate]
    refine (iha hs).bind fun first s₁ ha hs₁ => ?_
    rw [← ha]
    refine (ensures_toBound hs₁ first _).bind fun _ s₂ _ hs₂ => ?_
    refine (ihb hs₂).bind fun second s₃ hb hs₃ => ?_
    rw [← hb]
    exact (ensures_toBound hs₃ second _).finish fun _ _ _ hs₄ => .pure hs₄ rfl

end Eval

end ScriptLang
