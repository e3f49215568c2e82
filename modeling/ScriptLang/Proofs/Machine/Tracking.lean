import ScriptLang.Proofs.Codegen.Emission
import ScriptLang.Proofs.Machine.Frame
import ScriptLang.Proofs.Typing.Operator

/-!
# Code that tracks a computation

A piece of code tracks a computation if it finishes where the computation gives a
result, and goes to the trap of the fault where it fails. Pieces emitted one after the
other track computations done one after the other.
-/

namespace ScriptLang

open Assembly Assembly.Machine

variable {α β : Type}

/-- What running the code comes to: a result and the states behind have one property, and
a machine that traps has another. -/
def Tracks (L : Layout) (code : List Instruction) (m : Machine) (trapped : Machine → Prop)
    (r : EStateM.Result Halt Evaluation α) (q : α → Evaluation → Machine → Prop) : Prop :=
  match r with
  | .ok a s => ∃ m', Finishes L code m m' ∧ q a s m'
  | .error (.fault f) _ =>
    ∃ trap m', f.cause.trap? = some trap ∧ Leaves L code m (.trap trap) m' ∧ trapped m'
  | .error .outOfFuel _ => False

namespace Tracks

variable {L : Layout} {code code' : List Instruction} {m m' : Machine} {s : Evaluation}
  {x : Eval α} {f : α → Eval β} {j k : Machine → Prop} {q : α → Evaluation → Machine → Prop}
  {r : β → Evaluation → Machine → Prop} {g g' g'' : Generator}
  {result : EStateM.Result Halt Evaluation α}

theorem weaken {q' : α → Evaluation → Machine → Prop} (h : Tracks L code m j result q)
    (hj : ∀ m', j m' → k m') (hq : ∀ a s' m', q a s' m' → q' a s' m') :
    Tracks L code m k result q' := by
  unfold Tracks at h ⊢
  split at h
  · obtain ⟨m', hrun, ha⟩ := h
    exact ⟨m', hrun, hq _ _ _ ha⟩
  · obtain ⟨trap, m', ht, hrun, hm'⟩ := h
    exact ⟨trap, m', ht, hrun, hj m' hm'⟩
  · exact h

/-- Code without a counterpart comes first. -/
theorem after (he : g.Emits code g') (he' : g'.Emits code' g'') (h : Finishes L code m m')
    (ht : Tracks L code' m' j result q) : Tracks L (code ++ code') m j result q := by
  unfold Tracks at ht ⊢
  split at ht
  · obtain ⟨m'', hrun, ha⟩ := ht
    exact ⟨m'', h.append hrun (he.labels_apart he'), ha⟩
  · obtain ⟨trap, m'', ht, hrun, hm''⟩ := ht
    exact ⟨trap, m'', ht, h.leaves hrun (he.labels_apart he') (he.trap_notMem trap), hm''⟩
  · exact ht

theorem bind (he : g.Emits code g') (he' : g'.Emits code' g'')
    (hx : Tracks L code m j (x s) q)
    (hf : ∀ a s' m', q a s' m' → Tracks L code' m' j (f a s') r) :
    Tracks L (code ++ code') m j ((x >>= f) s) r := by
  cases hr : x s with
  | ok a s' =>
    rw [hr] at hx
    obtain ⟨m', hrun, ha⟩ := hx
    rw [bind_of_ok f hr]
    exact after he he' hrun (hf a s' m' ha)
  | error halt s' =>
    rw [hr] at hx
    rw [bind_of_error f hr]
    cases halt with
    | outOfFuel => exact hx
    | fault fault =>
      obtain ⟨trap, m', ht, hrun, hm'⟩ := hx
      exact ⟨trap, m', ht, hrun.append (he'.trap_notMem trap), hm'⟩

/-- The trap of a cause is reached exactly by failing for it. -/
theorem leaves_iff {trap : Trap} {cause : Cause} (h : Tracks L code m j result q)
    (hc : ∀ c : Cause, c.trap? = some trap ↔ c = cause) :
    (∃ m', Leaves L code m (.trap trap) m') ↔
      ∃ position s', result = .error (.fault ⟨cause, position⟩) s' := by
  unfold Tracks at h
  split at h
  · obtain ⟨m', hrun, -⟩ := h
    simp [hrun.not_leaves]
  · next fault s' =>
    obtain ⟨other, m', ht, hrun, -⟩ := h
    constructor
    · rintro ⟨m'', hrun'⟩
      obtain ⟨heq, -⟩ := hrun.unique hrun'
      cases heq
      obtain rfl := (hc fault.cause).mp ht
      exact ⟨fault.position, s', rfl⟩
    · rintro ⟨position, s'', heq⟩
      cases heq
      cases ht.symm.trans ((hc cause).mpr rfl)
      exact ⟨m', hrun⟩
  · exact h.elim

theorem trapped {l : Label} (h : Tracks L code m j result q) (hl : Leaves L code m l m') :
    j m' := by
  unfold Tracks at h
  split at h
  · obtain ⟨m'', hrun, -⟩ := h
    exact absurd hl hrun.not_leaves
  · obtain ⟨trap, m'', -, hrun, hm''⟩ := h
    obtain ⟨-, rfl⟩ := hrun.unique hl
    exact hm''
  · exact h.elim

/-- An operator's outcome is settled by the code that realizes it. -/
theorem settle {o : Outcome} {objection : Option Cause} {type : ValueType}
    (h : Realizes L code m o) (ho : o.Follows objection type) (position : Position) :
    Tracks L code m m.Keeps (Eval.settle position o s) fun v s' m' =>
      v.type = type ∧ v.word? = some (m'.registers .rax) ∧
        s'.environment = s.environment ∧ m.Keeps m' := by
  cases o with
  | value v =>
    obtain ⟨m', hrun, hw, hk⟩ := h
    exact ⟨m', hrun, ho.2, hw, rfl, hk⟩
  | reported cause v =>
    obtain ⟨m', hrun, hw, hk⟩ := h
    exact ⟨m', hrun, ho.2, hw, rfl, hk⟩
  | failed cause => exact h

end Tracks

end ScriptLang
