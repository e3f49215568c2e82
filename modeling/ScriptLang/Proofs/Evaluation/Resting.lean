import ScriptLang.Grammar.Source
import ScriptLang.Proofs.Evaluation.Balance
import ScriptLang.Proofs.Evaluation.Signals

/-!
# What a run leaves behind

One evaluation may run several programs, one after another. Each statement of the top level
and `main` start at rest, with no signal set and no value returned by an earlier one, and so
does the next program, but for one case: a statement of the top level that halts leaves what
it had set by then.
-/

namespace ScriptLang

/-- At the top level, with no signal set and no value returned. -/
structure Evaluation.Resting (s : Evaluation) : Prop where
  depth : s.environment.depth = 1
  frameBase : s.frameBase = 0
  signals : s.signals = .clear
  returned : s.returned = none

namespace Evaluation.Resting

variable {s t : Evaluation}

theorem new : Evaluation.new.Resting := ⟨rfl, rfl, rfl, rfl⟩

theorem framed (h : s.Resting) : s.Framed := by
  rw [Framed, h.depth, h.frameBase]
  exact Nat.one_pos

theorem level_of_balanced (h : s.Resting) (hb : s.Balanced t) :
    t.environment.depth = 1 ∧ t.frameBase = 0 :=
  ⟨hb.depth.trans h.depth, hb.frameBase.trans h.frameBase⟩

theorem level_call (h : s.Resting) (n : Nat) (name : String) (vs : List Value)
    (position : Position) :
    ((Eval.call n name vs position).after s).environment.depth = 1 ∧
      ((Eval.call n name vs position).after s).frameBase = 0 :=
  h.level_of_balanced (Eval.keeps_call lawful_balance n name vs position s h.framed)

theorem level_execute (h : s.Resting) (fuel : Nat) (b : Stmt) :
    ((Eval.execute (Eval.call fuel) fuel b).after s).environment.depth = 1 ∧
      ((Eval.execute (Eval.call fuel) fuel b).after s).frameBase = 0 :=
  h.level_of_balanced (Eval.keeps_execute lawful_balance (Eval.keeps_call lawful_balance fuel)
    fuel b s h.framed)

end Evaluation.Resting

namespace Eval

variable {s t : Evaluation} {fuel : Nat} {e : Halt}

/-- Functions are registered at rest. -/
theorem registerAll_resting (fs : List Function) (hs : s.Resting) :
    ∃ t, registerAll fs s = .ok () t ∧ t.Resting := by
  induction fs generalizing s with
  | nil => exact ⟨s, rfl, hs⟩
  | cons f fs ih =>
    obtain ⟨u, hu, hrest⟩ : ∃ u, register f s = .ok () u ∧ u.Resting := by
      rw [register, get_bind]
      split
      · exact ⟨_, rfl, hs.depth, hs.frameBase, hs.signals, hs.returned⟩
      · exact ⟨_, rfl, hs.depth, hs.frameBase, hs.signals, hs.returned⟩
    obtain ⟨t, ht, htrest⟩ := ih hrest
    exact ⟨t, (bind_of_ok _ hu).trans ht, htrest⟩

theorem reporting_sameReturned : Reporting fun s t => t.returned = s.returned where
  refl _ := rfl
  trans h h' := h'.trans h
  report _ _ := rfl

/-- A call takes the value that its body returned, however it ends. -/
theorem returned_call (n : Nat) (name : String) (vs : List Value) (position : Position)
    (hs : s.returned = none) : ((call n name vs position).after s).returned = none := by
  cases n with
  | zero => exact hs
  | succ n =>
    rw [call, callWith, after_get_bind]
    cases s.functions.find? name with
    | none => exact hs
    | some f =>
      dsimp only
      split
      · obtain ⟨u, hu⟩ := bindParameters_ok f.parameters vs position s.enterFrame
        have hframe : (enter (executeAll (call n) n) f vs position).after s =
          ((executeAll (call n) n f.body.body).after u).leaveFrame s.frameBase := after_enter hu
        cases hx : enter (executeAll (call n) n) f vs position s with
        | ok v t =>
          rw [after_ok hx] at hframe
          rw [after_bind hx, Keeps.resultOf reporting_sameReturned, hframe]
          rfl
        | error e t =>
          rw [after_error hx] at hframe
          rw [after_error (bind_of_error _ hx), hframe]
          rfl
      · exact hs

/-- A call from rest ends at rest, however it ends. -/
theorem call_resting (n : Nat) (name : String) (vs : List Value) (position : Position)
    (hs : s.Resting) : ((call n name vs position).after s).Resting := by
  obtain ⟨hdepth, hbase⟩ := hs.level_call n name vs position
  exact ⟨hdepth, hbase, staysClear_call n name vs position s hs.signals,
    returned_call n name vs position hs.returned⟩

/-- Whatever a statement of the top level leaves, the next one starts at rest. -/
theorem runTopLevel_resting {body : List Stmt} (hs : s.Resting)
    (h : runTopLevel fuel body s = .ok () t) : t.Resting := by
  induction body generalizing s with
  | nil =>
    cases h
    exact hs
  | cons b rest ih =>
    obtain ⟨_, u, hu, h⟩ := bind_ok.mp h
    obtain ⟨hdepth, hbase⟩ := hs.level_execute fuel b
    rw [after_ok hu] at hdepth hbase
    exact ih (s := { u with signals := .clear, returned := none }) ⟨hdepth, hbase, rfl, rfl⟩ h

/-- The top level halts in one of its statements. -/
theorem runTopLevel_error {body : List Stmt} (h : runTopLevel fuel body s = .error e t) :
    ∃ before b after u, body = before ++ b :: after ∧
      runTopLevel fuel before s = .ok () u ∧ execute (call fuel) fuel b u = .error e t := by
  induction body generalizing s with
  | nil => cases h
  | cons b rest ih =>
    rcases bind_error.mp h with h | ⟨_, u, hu, h⟩
    · exact ⟨[], b, rest, s, rfl, rfl, h⟩
    · obtain ⟨before, b', after, v, rfl, hv, hb'⟩ := ih h
      exact ⟨b :: before, b', after, v, rfl, (bind_of_ok _ hu).trans hv, hb'⟩

/-- From rest, every statement of the top level and `main` are started at rest, and a run that
does not halt ends at rest. One that halts has left its scopes and frames too; it ends at rest
unless a statement of the top level halted, and then as that statement left it. -/
theorem run_resting (hs : s.Resting) (fuel : Nat) (p : Program) :
    (∀ before after u, p.topLevel = before ++ after →
      (do registerAll p.functions; runTopLevel fuel before) s = .ok () u → u.Resting) ∧
    (∀ t, run fuel p s = .ok () t → t.Resting) ∧
    ∀ e t, run fuel p s = .error e t → t.environment.depth = 1 ∧ t.frameBase = 0 ∧
      (t.Resting ∨ ∃ before b after u, p.topLevel = before ++ b :: after ∧
        (do registerAll p.functions; runTopLevel fuel before) s = .ok () u ∧
        execute (call fuel) fuel b u = .error e t) := by
  obtain ⟨s₁, hs₁, hrest₁⟩ := registerAll_resting p.functions hs
  have hbefore : ∀ {body u}, (do registerAll p.functions; runTopLevel fuel body) s = .ok () u →
      u.Resting := by
    intro body u h
    rw [bind_of_ok _ hs₁] at h
    exact runTopLevel_resting hrest₁ h
  refine ⟨fun _ _ _ _ h => hbefore h, fun t h => ?_, fun e t h => ?_⟩
  · rw [run, bind_of_ok _ hs₁] at h
    obtain ⟨_, u, hu, h⟩ := bind_ok.mp h
    rw [get_bind] at h
    split at h
    · obtain ⟨_, _, hcall, h⟩ := bind_ok.mp h
      cases h
      have hmain := call_resting fuel "main" [] p.span.start (runTopLevel_resting hrest₁ hu)
      rwa [after_ok hcall] at hmain
    · cases h
  · rw [run, bind_of_ok _ hs₁] at h
    rcases bind_error.mp h with h | ⟨_, u, hu, h⟩
    · obtain ⟨before, b, after, u, hsplit, hu, hb⟩ := runTopLevel_error h
      have hrest := runTopLevel_resting hrest₁ hu
      obtain ⟨hdepth, hbase⟩ := hrest.level_execute fuel b
      rw [after_error hb] at hdepth hbase
      exact ⟨hdepth, hbase, .inr ⟨before, b, after, u, hsplit, (bind_of_ok _ hs₁).trans hu, hb⟩⟩
    · have hrest := runTopLevel_resting hrest₁ hu
      suffices t.Resting from ⟨this.depth, this.frameBase, .inl this⟩
      rw [get_bind] at h
      split at h
      · rcases bind_error.mp h with h | ⟨_, _, _, h⟩
        · have hmain := call_resting fuel "main" [] p.span.start hrest
          rwa [after_error h] at hmain
        · cases h
      · cases h
        exact hrest

/-- The state behind a run that does not halt. -/
def finished? : EStateM.Result Halt Evaluation Unit → Option Evaluation
  | .ok _ t => some t
  | .error _ _ => none

/-- The state behind a run that halts. -/
def halted? : EStateM.Result Halt Evaluation Unit → Option Evaluation
  | .ok _ _ => none
  | .error _ t => some t

theorem finished_of_any {x : EStateM.Result Halt Evaluation Unit} {test : Evaluation → Bool}
    (h : (finished? x).any test = true) : ∃ t, x = .ok () t ∧ test t = true := by
  cases x with
  | ok _ t => exact ⟨t, rfl, h⟩
  | error e t => cases h

theorem halted_of_any {x : EStateM.Result Halt Evaluation Unit} {test : Evaluation → Bool}
    (h : (halted? x).any test = true) : ∃ e t, x = .error e t ∧ test t = true := by
  cases x with
  | ok _ t => cases h
  | error e t => exact ⟨e, t, rfl, h⟩

/-- A program whose top level breaks and whose `main` returns. -/
theorem run_resting_main :
    let source := "print(run \x7b break; 1 \x7d)\nfun main() \x7b return \x7d"
    Evaluation.new.Resting ∧ ∃ p, Program.ofSource source "f" = .ok p ∧
      ∃ t, run 3 p .new = .ok () t ∧ t.Resting := by
  intro source
  have hany : (Program.ofSource source "f").toOption.any
      (fun p => (finished? (run 3 p .new)).any fun _ => true) = true := by
    decide +kernel
  obtain ⟨p, hp, hrun⟩ := exists_of_any hany
  obtain ⟨t, ht, -⟩ := finished_of_any hrun
  exact ⟨.new, p, hp, t, ht, (run_resting .new 3 p).2.1 t ht⟩

/-- A statement of the top level returns in one operand and divides by zero in the other. What
it leaves ends the body of the next `main` behind its first statement. -/
theorem run_not_resting :
    let source := "println(run \x7b return 5; 1 \x7d + 1 / 0)\nfun main() \x7b \x7d"
    let next := "fun main() \x7b println(\"a\")\nprintln(\"b\") \x7d"
    Evaluation.new.Resting ∧
    ∃ p q, Program.ofSource source "f" = .ok p ∧ Program.ofSource next "f" = .ok q ∧
      (∃ t, run 3 q .new = .ok () t ∧ t.output = "a\nb\n") ∧
      ∃ e t, run 3 p .new = .error e t ∧ ¬ t.Resting ∧
        ∃ u, run 3 q t = .ok () u ∧ u.output = "a\n" := by
  intro source next
  have hany : (Program.ofSource source "f").toOption.any (fun p =>
        (Program.ofSource next "f").toOption.any fun q =>
          (finished? (run 3 q .new)).any (fun t => t.output = "a\nb\n") &&
          (halted? (run 3 p .new)).any fun t => t.returned.isSome &&
            (finished? (run 3 q t)).any fun u => u.output = "a\n") = true := by
    decide +kernel
  obtain ⟨p, hp, hany⟩ := exists_of_any hany
  obtain ⟨q, hq, hany⟩ := exists_of_any hany
  obtain ⟨hclean, hany⟩ := Bool.and_eq_true_iff.mp hany
  obtain ⟨t, ht, hprinted⟩ := finished_of_any hclean
  obtain ⟨e, u, hu, hany⟩ := halted_of_any hany
  obtain ⟨hreturned, hany⟩ := Bool.and_eq_true_iff.mp hany
  obtain ⟨v, hv, hcut⟩ := finished_of_any hany
  refine ⟨.new, p, q, hp, hq, ⟨t, ht, of_decide_eq_true hprinted⟩, e, u, hu, fun hrest => ?_,
    v, hv, of_decide_eq_true hcut⟩
  rw [hrest.returned] at hreturned
  cases hreturned

end Eval

end ScriptLang
