import ScriptLang.Proofs.Evaluation.LoopRange
import ScriptLang.Proofs.Evaluation.Soundness

/-!
# What a loop counts

A `for` owns its counter: it is set in front of each lap, whatever the body stored in it.
So the laps run through the numbers from the start to the end of the range, computed in the
integers, up to bounds at the ends of the 64 bits. The runs of its body make up the loop: it
starts with the first, goes on behind each, and ends in what the last one leaves.
-/

namespace ScriptLang

/-- Reading the variable gives an integer. -/
def Evaluation.Reads (counter : String) (v : Int) (s : Evaluation) : Prop :=
  ∃ n : Int64, n.toInt = v ∧ ∀ position, Eval.read counter position s = .ok (.integer n) s

namespace Eval

variable {range : LoopRange} {counter : String} {body : Eval Unit} {laps k : Nat} {n : Int64}
  {s t u v : Evaluation}

/-- Of as many laps from the counter at `n` on, the body is run from the last state in the lap
of the number in front of it; laps are numbered from zero. -/
inductive StartsBody (range : LoopRange) (counter : String) (body : Eval Unit) :
    Nat → Int64 → Evaluation → Nat → Evaluation → Prop
  | first {laps : Nat} {n : Int64} {s u : Evaluation} :
    (do setCounter counter n; modifySignals .clearLoop : Eval Unit) s = .ok () u →
    StartsBody range counter body (laps + 1) n s 0 u
  | later {laps k : Nat} {n : Int64} {s t u : Evaluation} :
    (do setCounter counter n; lap body : Eval Bool) s = .ok true t →
    StartsBody range counter body laps (range.next n) t k u →
    StartsBody range counter body (laps + 1) n s (k + 1) u

/-! ## A lap -/

theorem handed_ok (counter : String) (n : Int64) (s : Evaluation) :
    ∃ u, (do setCounter counter n; modifySignals .clearLoop : Eval Unit) s = .ok () u := ⟨_, rfl⟩

/-- A variable that can count takes any integer of 64 bits. -/
theorem startBody_ok (hs : s.environment.Rooted) (hc : s.Counts counter) (n : Int64) :
    ∃ u, (do setCounter counter n; modifySignals .clearLoop : Eval Unit) s = .ok () u ∧
      u.environment.Rooted ∧ u.Counts counter ∧ u.Reads counter n.toInt := by
  obtain ⟨b, hb, hm, ht⟩ := hc
  have hu : s.environment.update counter (.integer n) =
      .ok ⟨Environment.storeIn counter (.integer n) s.environment.scopes⟩ := by
    rw [Environment.update, hb]
    exact if_pos hm
  have hset : setCounter counter n s = .ok ()
      { s with environment := ⟨Environment.storeIn counter (.integer n) s.environment.scopes⟩ } := by
    change EStateM.Result.ok () { s with environment := _ } = _
    dsimp only
    rw [hu]
  obtain ⟨b', hb', -, hfind⟩ := Environment.find?_update hu
  obtain rfl : b = b' := Option.some.inj (hb.symm.trans hb')
  have hread := hfind counter
  rw [if_pos rfl, ht] at hread
  refine ⟨_, bind_of_ok _ hset, ?_, ⟨_, hread, hm, rfl⟩, n, rfl, fun position => ?_⟩
  · rw [Environment.rooted_iff]
    exact (Environment.depth_update hu).symm ▸ Environment.rooted_iff.mp hs
  · rw [read, get_bind]
    dsimp only
    rw [hread]
    rfl

/-- A lap runs the body behind the counter is set, and goes on unless the body broke or
returned. -/
theorem countedLap_ok (hu : (do setCounter counter n; modifySignals .clearLoop : Eval Unit) s = .ok () u)
    (hv : body u = .ok () v) : (do setCounter counter n; lap body : Eval Bool) s =
      .ok (!v.signals.endsLoop) { v with signals := v.signals.afterBody } := by
  obtain ⟨_, s₁, hset, hclear⟩ := bind_ok.mp hu
  rw [bind_of_ok _ hset, lap, bind_of_ok _ hclear, bind_of_ok _ hv]
  rfl

theorem forLoop_succ {go : Bool} (h : (do setCounter counter n; lap body : Eval Bool) s = .ok go t)
    (laps : Nat) : forLoop range counter body (laps + 1) n s =
      if go then forLoop range counter body laps (range.next n) t else .ok () t := by
  obtain ⟨_, s₁, hset, hlap⟩ := bind_ok.mp h
  rw [forLoop, bind_of_ok _ hset, bind_of_ok _ hlap]
  cases go <;> rfl

/-- Counting the laps beforehand is testing the number in front of each of them, and ending
where the step behind one leaves the 64 bits. -/
theorem forLoop_startingAt (hstep : 0 < range.step.toInt) (n : Int64) :
    forLoop range counter body (range.startingAt n).count n = (do
      if range.Admits n.toInt then
        setCounter counter n
        if ← lap body then
          if Fits64 (range.stepped n.toInt) then
            forLoop range counter body (range.startingAt (range.next n)).count (range.next n)) := by
  rw [LoopRange.count_startingAt hstep]
  by_cases hadmits : range.Admits n.toInt
  · rw [if_pos hadmits, if_pos hadmits]
    by_cases hfits : Fits64 (range.stepped n.toInt)
    · simp only [if_pos hfits]
      rfl
    · simp only [if_neg hfits]
      rfl
  · rw [if_neg hadmits, if_neg hadmits]
    rfl

/-- What a lap does behind its body. -/
def endLap : Eval Bool := do
  let signals := (← get).signals
  modifySignals .afterBody
  return !signals.endsLoop

theorem lap_eq (body : Eval Unit) : lap body = (do modifySignals .clearLoop; body; endLap) := rfl

/-- In front of its body, a lap has set the counter. -/
theorem run_lap (hu : (do setCounter counter n; modifySignals .clearLoop : Eval Unit) s = .ok () u) :
    (do setCounter counter n; lap body : Eval Bool) s = (do body; endLap : Eval Bool) u := by
  obtain ⟨_, s₁, hset, hclear⟩ := bind_ok.mp hu
  rw [lap_eq, bind_of_ok _ hset, bind_of_ok _ hclear]

/-- What is left of a loop in the lap of the number, from the run of its body on. Behind it comes
the loop from the next number on, unless the step to it leaves the 64 bits. -/
def restOfLoop (range : LoopRange) (counter : String) (body : Eval Unit) (n : Int64) :
    Eval Unit := do
  body
  if ← endLap then
    if Fits64 (range.stepped n.toInt) then
      forLoop range counter body (range.startingAt (range.next n)).count (range.next n)

/-- Laps are counted up to the number of them. -/
theorem StartsBody.lt (h : StartsBody range counter body laps n s k u) : k < laps := by
  induction h with
  | first => exact Nat.zero_lt_succ _
  | later _ _ ih => exact Nat.succ_lt_succ ih

/-- From each run of its body on, the loop is what is left of it. -/
theorem StartsBody.resumes (h : StartsBody range counter body laps n s k u)
    (hstep : 0 < range.step.toInt) (hlaps : laps = (range.startingAt n).count) :
    forLoop range counter body laps n s =
      restOfLoop range counter body (range.numberFrom n k) u := by
  induction h with
  | @first laps n s u hu =>
    have hadmits : range.Admits n.toInt := by
      by_contra hadmits
      rw [LoopRange.count_startingAt hstep, if_neg hadmits] at hlaps
      cases hlaps
    rw [hlaps, forLoop_startingAt hstep, if_pos hadmits]
    refine (congrFun (bind_assoc _ _ _) s).symm.trans ((bind_congr_left _ (run_lap hu)).trans ?_)
    exact congrFun (bind_assoc _ _ _) u
  | @later laps k n s t u hlap hrest ih =>
    rw [LoopRange.count_startingAt hstep] at hlaps
    rw [forLoop_succ hlap, if_pos rfl]
    refine ih ?_
    split at hlaps
    · split at hlaps
      · omega
      · obtain rfl : laps = 0 := by omega
        cases hrest
    · cases hlaps

/-- The next run of the body starts in the state in which the last one left the lap, with the
counter set to the next number. -/
theorem StartsBody.next (h : StartsBody range counter body laps n s k u)
    (h' : StartsBody range counter body laps n s (k + 1) v) :
    ∃ t, (do body; endLap : Eval Bool) u = .ok true t ∧
      (do setCounter counter (range.numberFrom n (k + 1)); modifySignals .clearLoop : Eval Unit) t =
        .ok () v := by
  induction h with
  | first hu =>
    cases h' with
    | later hlap h' =>
      cases h' with
      | first hv => exact ⟨_, (run_lap hu).symm.trans hlap, hv⟩
  | later hlap _ ih =>
    cases h' with
    | later hlap' h' =>
      cases hlap.symm.trans hlap'
      exact ih h'

/-- The loop ends in what the last run of its body leaves, however that ends. -/
theorem StartsBody.last (h : StartsBody range counter body laps n s k u)
    (hlast : ∀ v, ¬ StartsBody range counter body laps n s (k + 1) v) :
    forLoop range counter body laps n s = (do body; modifySignals .afterBody : Eval Unit) u := by
  induction h with
  | @first laps n s u hu =>
    cases hv : body u with
    | error e v =>
      have hlap := (run_lap hu).trans (bind_of_error _ hv)
      refine (congrFun (bind_assoc _ _ _) s).symm.trans ((bind_of_error _ hlap).trans ?_)
      exact (bind_of_error _ hv).symm
    | ok _ v =>
      have hlap := countedLap_ok hu hv
      rw [forLoop_succ hlap, bind_of_ok _ hv]
      cases hends : v.signals.endsLoop with
      | true => rfl
      | false =>
        rw [hends] at hlap
        cases laps with
        | zero => rfl
        | succ laps =>
          obtain ⟨w, hw⟩ := handed_ok counter (range.next n) { v with signals := v.signals.afterBody }
          exact absurd (.later hlap (.first hw)) (hlast w)
  | later hlap _ ih =>
    rw [forLoop_succ hlap, if_pos rfl]
    exact ih fun v hv => hlast v (.later hlap hv)

/-! ## The laps -/

section

variable (hstep : 0 < range.step.toInt) (hk : Keeps (Evaluation.Retains counter) body)

include hstep hk

/-- What a lap does: the counter reads its number, and behind the body the counter can count
on, in front of as many laps as are left for the number behind. -/
theorem lap_counts (hlaps : laps + 1 ≤ (range.startingAt n).count) (hs : s.environment.Rooted)
    (hc : s.Counts counter)
    (hbody : ∀ u, (do setCounter counter n; modifySignals .clearLoop : Eval Unit) s = .ok () u →
      ∃ v, body u = .ok () v ∧ v.signals.endsLoop = false) :
    ∃ u t, (do setCounter counter n; modifySignals .clearLoop : Eval Unit) s = .ok () u ∧
      u.Reads counter n.toInt ∧ (do setCounter counter n; lap body : Eval Bool) s = .ok true t ∧
      t.environment.Rooted ∧ t.Counts counter ∧ laps ≤ (range.startingAt (range.next n)).count ∧
      (0 < laps → (range.next n).toInt = range.stepped n.toInt) := by
  obtain ⟨u, hu, hur, huc, hreads⟩ := startBody_ok hs hc n
  obtain ⟨v, hv, hends⟩ := hbody u hu
  have hlap := countedLap_ok hu hv
  rw [hends] at hlap
  have hretains := hk u
  rw [after_ok hv] at hretains
  -- Signals are no part of the environment.
  refine ⟨u, _, hu, hreads, hlap, (hretains hur).1, huc.of_retains hur hretains, ?_⟩
  rw [LoopRange.count_startingAt hstep] at hlaps
  split at hlaps
  · split at hlaps
    · next hfits => exact ⟨by omega, fun _ => LoopRange.toInt_next hfits⟩
    · exact ⟨by omega, fun _ => by omega⟩
  · omega

/-- If no body breaks or returns, all laps are run, on the numbers of the range. -/
theorem forLoop_counts (hlaps : laps ≤ (range.startingAt n).count) (hs : s.environment.Rooted)
    (hc : s.Counts counter)
    (hbody : ∀ k u, StartsBody range counter body laps n s k u →
      ∃ v, body u = .ok () v ∧ v.signals.endsLoop = false) :
    (∃ t, forLoop range counter body laps n s = .ok () t) ∧
      (∀ k u, StartsBody range counter body laps n s k u →
        u.Reads counter (range.valueFrom n.toInt k)) ∧
      ∀ k, (∃ u, StartsBody range counter body laps n s k u) ↔ k < laps := by
  induction laps generalizing n s with
  | zero =>
    have hnone : ∀ k u, ¬ StartsBody range counter body 0 n s k u := fun k u h => by cases h
    exact ⟨⟨s, rfl⟩, fun k u h => absurd h (hnone k u),
      fun k => ⟨fun ⟨u, h⟩ => absurd h (hnone k u), fun h => absurd h (Nat.not_lt_zero k)⟩⟩
  | succ laps ih =>
    obtain ⟨u, t, hu, hreads, hlap, ht, htc, hrest, hnext⟩ :=
      lap_counts hstep hk hlaps hs hc fun u hu => hbody 0 u (.first hu)
    obtain ⟨⟨t', hend⟩, hvalues, hnumbers⟩ :=
      ih hrest ht htc fun k u' hu' => hbody (k + 1) u' (.later hlap hu')
    refine ⟨⟨t', (forLoop_succ hlap laps).trans hend⟩, fun k u' hu' => ?_, fun k => ?_⟩
    · cases hu' with
      | first hu' =>
        rw [hu] at hu'
        cases hu'
        rwa [LoopRange.valueFrom_zero]
      | @later _ k _ _ _ _ hlap' hu' =>
        rw [hlap] at hlap'
        cases hlap'
        have hpos : 0 < laps := Nat.zero_lt_of_lt ((hnumbers k).mp ⟨u', hu'⟩)
        rw [LoopRange.valueFrom_succ, ← hnext hpos]
        exact hvalues k u' hu'
    · cases k with
      | zero => exact ⟨fun _ => Nat.zero_lt_succ laps, fun _ => ⟨u, .first hu⟩⟩
      | succ k =>
        rw [Nat.add_lt_add_iff_right, ← hnumbers k]
        refine ⟨fun ⟨u', hu'⟩ => ?_, fun ⟨u', hu'⟩ => ⟨u', .later hlap hu'⟩⟩
        cases hu' with
        | later hlap' hu' =>
          rw [hlap] at hlap'
          cases hlap'
          exact ⟨u', hu'⟩

end

/-! ## The statement -/

section

variable (nesting fuel : Nat) (range : Expr) (counter : String) (body : Stmt)

/-- In an execution of a `for` from the first state, its body is run from the second one, in
the lap of the number between. -/
def RunsBody (s : Evaluation) (k : Nat) (u : Evaluation) : Prop :=
  ∃ bounds s₁ s₂, loopRange (call nesting) fuel range.span.start range s = .ok bounds s₁ ∧
    enterFor bounds counter s₁ = .ok () s₂ ∧
    StartsBody bounds counter (execute (call nesting) fuel body) bounds.count bounds.start s₂ k u

end

variable {nesting fuel : Nat} {e : Expr} {b : Stmt} {bounds : LoopRange}

/-- Once the bounds are there and the counter is put in place, the body is run in the laps. -/
theorem runsBody_iff {counter : String} {s₂ : Evaluation}
    (hbounds : loopRange (call nesting) fuel e.span.start e s = .ok bounds t)
    (henter : enterFor bounds counter t = .ok () s₂) (k : Nat) (u : Evaluation) :
    RunsBody nesting fuel e counter b s k u ↔
      StartsBody bounds counter (execute (call nesting) fuel b) bounds.count bounds.start s₂ k u := by
  refine ⟨fun ⟨bounds', t', s₂', hbounds', henter', h⟩ => ?_,
    fun h => ⟨bounds, t, s₂, hbounds, henter, h⟩⟩
  rw [hbounds] at hbounds'
  cases hbounds'
  rw [henter] at henter'
  cases henter'
  exact h

/-- A lap that is counted is reached from the laps it is one of. -/
theorem StartsBody.reaches {c : Nat}
    (h : StartsBody range counter (execute (call nesting) fuel b) c n s k u) :
    Reaches ⟨nesting, fuel, .forLaps range counter b c n⟩ s ⟨nesting, fuel, .statement b⟩ u := by
  induction h with
  | first hu =>
    obtain ⟨_, s₁, hset, hclear⟩ := bind_ok.mp hu
    exact .start .self List.mem_cons_self (by rw [bind_of_ok _ hset, bind_of_ok _ hclear]; rfl)
  | later hlap _ ih =>
    obtain ⟨_, s₁, hset, hlap⟩ := bind_ok.mp hlap
    exact .behind (List.mem_cons_of_mem _ List.mem_cons_self)
      (by rw [bind_of_ok _ hset, bind_of_ok _ hlap]; rfl) ih

/-- What is run as a body of the loop is reached from the loop. -/
theorem RunsBody.reaches (h : RunsBody nesting fuel e counter b s k u) (span : Span) :
    Reaches ⟨nesting, fuel, .statement (.forLoop counter e b span)⟩ s
      ⟨nesting, fuel, .statement b⟩ u := by
  obtain ⟨bounds, s₁, s₂, hbounds, henter, hstarts⟩ := h
  exact .behind (List.mem_cons_of_mem _ List.mem_cons_self)
    (by rw [bind_of_ok _ hbounds, bind_of_ok _ henter]; rfl) hstarts.reaches

/-- The step of a loop is checked for zero first, then for its sign. -/
theorem checkStep_eq (m : Int64) (position : Position) (s : Evaluation) :
    checkStep m position s =
      if m = 0 then .error (.fault ⟨.zeroStep, position⟩) s
      else if m < 0 then .error (.fault ⟨.negativeStep m, position⟩) s else .ok () s := by
  unfold checkStep
  by_cases hzero : m = 0
  · rw [if_pos hzero, if_pos hzero]
    rfl
  · rw [if_neg hzero, if_neg hzero]
    dsimp only
    split <;> rfl

/-- A step that is checked is positive. -/
theorem toInt_pos {m : Int64} (hzero : ¬ m = 0) (hneg : ¬ m < 0) : 0 < m.toInt := by
  have hne : m.toInt ≠ 0 := fun h => hzero (Int64.toInt_inj.mp h)
  have hnot : ¬ m.toInt < 0 := fun h => hneg (Int64.lt_iff_toInt_lt.mpr h)
  omega

theorem loopStep_pos {o : Option Expr} {m : Int64}
    (h : loopStep (call nesting) fuel o s = .ok m t) : 0 < m.toInt := by
  cases o with
  | none =>
    cases h
    decide
  | some e =>
    obtain ⟨v, s₁, -, h⟩ := bind_ok.mp h
    obtain ⟨_, s₂, -, h⟩ := bind_ok.mp h
    obtain ⟨_, s₃, hcheck, h⟩ := bind_ok.mp h
    obtain ⟨rfl, -⟩ := pure_ok.mp h
    rw [checkStep_eq] at hcheck
    by_cases hzero : m = 0
    · rw [if_pos hzero] at hcheck
      cases hcheck
    · by_cases hneg : m < 0
      · rw [if_neg hzero, if_pos hneg] at hcheck
        cases hcheck
      · exact toInt_pos hzero hneg

/-- The bounds of a loop have a positive step, and the flags of the range they come of. -/
theorem loopRange_ok {position : Position} :
    ∀ {e : Expr}, loopRange (call nesting) fuel position e s = .ok bounds t →
      0 < bounds.step.toInt ∧ ∃ first stop step span,
        e.ungroup = .range first stop bounds.excludesStop bounds.descending step span
  | .group inner _, h => loopRange_ok (e := inner) h
  | .range first stop excludesStop descending step span, h => by
    obtain ⟨_, s₁, -, h⟩ := bind_ok.mp h
    obtain ⟨a, s₂, -, h⟩ := bind_ok.mp h
    obtain ⟨_, s₃, -, h⟩ := bind_ok.mp h
    obtain ⟨b, s₄, -, h⟩ := bind_ok.mp h
    obtain ⟨m, s₅, hstep, h⟩ := bind_ok.mp h
    obtain ⟨rfl, -⟩ := pure_ok.mp h
    exact ⟨loopStep_pos hstep, first, stop, step, span, rfl⟩

/-- The counter is put in place in front of the laps: it is there, or declared in a scope of
its own. -/
theorem enterFor_eq (bounds : LoopRange) (counter : String) (s : Evaluation) :
    enterFor bounds counter s = .ok () (if reusesCounter s counter then s else
      { s.enterScope with environment :=
        s.enterScope.environment.declare counter (.integer bounds.start) .int true }) := by
  change (if reusesCounter s counter = true then Pure.pure () else _ : Eval Unit) s = _
  split <;> rfl

/-- Where the counter is put in place, it can count, and there is a scope to keep it. -/
theorem enterFor_counts (henter : enterFor bounds counter s = .ok () t) :
    t.environment.Rooted ∧ t.Counts counter := by
  rw [enterFor_eq] at henter
  cases henter
  split
  · next hreuse =>
    have hcounts := Evaluation.counts_of_reusesCounter hreuse
    refine ⟨fun hnil => ?_, hcounts⟩
    obtain ⟨b, hb, -⟩ := hcounts
    rw [Environment.find?, hnil] at hb
    cases hb
  · exact ⟨List.cons_ne_nil _ _,
      Evaluation.counts_declare (s := s.enterScope) (List.cons_ne_nil _ _)⟩

/-- What a `for` comes to with these laps, if the state is the one behind its bounds: a counter of
its own is left with its scope, however the laps end. -/
def leaveFor (counter : String) (s : Evaluation) :
    EStateM.Result Halt Evaluation Unit → EStateM.Result Halt Evaluation Unit
  | .ok _ u => .ok () (if reusesCounter s counter then u else u.leaveScope)
  | .error e u => .error e (if reusesCounter s counter then u else u.leaveScope)

theorem runFor_eq {x : Eval Unit} (henter : enterFor bounds counter s = .ok () t) :
    runFor bounds counter x s =
      leaveFor counter s (forLoop bounds counter x bounds.count bounds.start t) := by
  rw [enterFor_eq] at henter
  cases henter
  rw [runFor, get_bind]
  by_cases hreuse : reusesCounter s counter = true
  · rw [if_pos hreuse, if_pos hreuse]
    cases h : forLoop bounds counter x bounds.count bounds.start s <;> simp [leaveFor, hreuse]
  · rw [if_neg hreuse, if_neg hreuse, inScope, ← Evaluation.enterScope,
      bind_of_ok _ (show modifyEnvironment _ s.enterScope = _ from rfl)]
    cases h : forLoop bounds counter x bounds.count bounds.start _ <;>
      simp [leaveFor, hreuse, Evaluation.leaveScope]

section

variable {counter : String} (span : Span) {s₂ : Evaluation}
  (hbounds : loopRange (call nesting) fuel e.span.start e s = .ok bounds t)
  (henter : enterFor bounds counter t = .ok () s₂)

include hbounds henter

/-- A `for` is its laps, once the bounds are there and the counter is put in place. -/
theorem execute_for : execute (call nesting) fuel (.forLoop counter e b span) s =
    leaveFor counter t (forLoop bounds counter (execute (call nesting) fuel b) bounds.count
      bounds.start s₂) :=
  (bind_of_ok _ hbounds).trans (runFor_eq henter)

/-- A `for` ends if its laps do. -/
theorem ends_for
    (h : forLoop bounds counter (execute (call nesting) fuel b) bounds.count bounds.start s₂ =
      .ok () u) : ∃ v, execute (call nesting) fuel (.forLoop counter e b span) s = .ok () v := by
  rw [execute_for span hbounds henter, h]
  exact ⟨_, rfl⟩

end

/-- A scope that only has the counter is left as it was entered. -/
theorem leaveFor_enterFor (henter : enterFor bounds counter s = .ok () t)
    (hs : s.environment.Rooted) : leaveFor counter s (.ok () t) = .ok () s := by
  rw [enterFor_eq] at henter
  cases henter
  by_cases hreuse : reusesCounter s counter = true
  · simp [leaveFor, hreuse]
  · obtain ⟨scope, scopes, hscopes⟩ := List.exists_cons_of_ne_nil hs
    have hleave : ((s.environment.push.declare counter (.integer bounds.start) .int true).pop) =
        s.environment := by
      rw [Environment.declare, Environment.bind, Environment.push, hscopes]
      exact congrArg Environment.mk hscopes.symm
    rw [leaveFor, if_neg hreuse, if_neg hreuse]
    exact congrArg (fun environment => EStateM.Result.ok () { s with environment }) hleave

/-- The runs of its body make up an execution of a `for`, between the state it starts in and
what it ends in. The second state is the one behind the bounds. -/
structure Unrolls (nesting fuel : Nat) (counter : String) (e : Expr) (b : Stmt) (span : Span)
    (bounds : LoopRange) (s t : Evaluation) : Prop where
  /-- With no run of its body the loop leaves everything as it is. -/
  skipped : (∀ u, ¬ RunsBody nesting fuel e counter b s 0 u) → t.environment.Rooted →
    execute (call nesting) fuel (.forLoop counter e b span) s = .ok () t
  /-- The first run starts once the counter is put in place. -/
  first : ∀ u, RunsBody nesting fuel e counter b s 0 u →
    (do enterFor bounds counter; setCounter counter bounds.start; modifySignals .clearLoop :
      Eval Unit) t = .ok () u
  /-- From each run on, the loop is what is left of it in the lap with this number. -/
  resumes : ∀ k u, RunsBody nesting fuel e counter b s k u → ∃ n : Int64,
    n.toInt = bounds.valueAt k ∧ execute (call nesting) fuel (.forLoop counter e b span) s =
      leaveFor counter t (restOfLoop bounds counter (execute (call nesting) fuel b) n u)
  /-- The next run starts in the state that the last one leaves, with the next number. -/
  next : ∀ k u v, RunsBody nesting fuel e counter b s k u →
    RunsBody nesting fuel e counter b s (k + 1) v → ∃ (n : Int64) (w : Evaluation),
      n.toInt = bounds.valueAt (k + 1) ∧
      (do execute (call nesting) fuel b; endLap : Eval Bool) u = .ok true w ∧
      (do setCounter counter n; modifySignals .clearLoop : Eval Unit) w = .ok () v
  /-- The loop ends in what its last run leaves, however that ends. -/
  last : ∀ k u, RunsBody nesting fuel e counter b s k u →
    (∀ v, ¬ RunsBody nesting fuel e counter b s (k + 1) v) →
    execute (call nesting) fuel (.forLoop counter e b span) s = leaveFor counter t
      ((do execute (call nesting) fuel b; modifySignals .afterBody : Eval Unit) u)
  /-- The evaluation of the loop comes by every run. -/
  reaches : ∀ k u, RunsBody nesting fuel e counter b s k u →
    Reaches ⟨nesting, fuel, .statement (.forLoop counter e b span)⟩ s
      ⟨nesting, fuel, .statement b⟩ u

/-- Once its bounds are there, a `for` is made up of the runs of its body. -/
theorem unrolls {counter : String} {span : Span}
    (hbounds : loopRange (call nesting) fuel e.span.start e s = .ok bounds t) :
    Unrolls nesting fuel counter e b span bounds s t := by
  obtain ⟨hstep, -⟩ := loopRange_ok hbounds
  obtain ⟨s₂, henter⟩ : ∃ s₂, enterFor bounds counter t = .ok () s₂ := ⟨_, enterFor_eq ..⟩
  have hruns := runsBody_iff (b := b) hbounds henter
  have hexecute := execute_for (b := b) span hbounds henter
  have hnumber : ∀ k u, RunsBody nesting fuel e counter b s k u →
      (bounds.numberFrom bounds.start k).toInt = bounds.valueAt k := fun k u hu =>
    LoopRange.toInt_numberFrom hstep ((hruns k u).mp hu).lt
  refine ⟨fun hnone hrooted => ?_, fun u hu => ?_, fun k u hu => ?_, fun k u v hu hv => ?_,
    fun k u hu hlast => ?_, fun k u hu => hu.reaches span⟩
  · have hcount : bounds.count = 0 := by
      by_contra hcount
      obtain ⟨laps, hlaps⟩ := Nat.exists_eq_succ_of_ne_zero hcount
      obtain ⟨u, hu⟩ := handed_ok counter bounds.start s₂
      exact hnone u ((hruns 0 u).mpr (hlaps ▸ .first hu))
    rw [hexecute, hcount]
    exact leaveFor_enterFor henter hrooted
  · rw [bind_of_ok _ henter]
    have hu := (hruns 0 u).mp hu
    generalize bounds.count = laps at hu
    cases hu with
    | first hu => exact hu
  · refine ⟨_, hnumber k u hu, ?_⟩
    rw [hexecute, ((hruns k u).mp hu).resumes hstep (by rw [LoopRange.startingAt_start])]
  · obtain ⟨w, hbody, hset⟩ := ((hruns k u).mp hu).next ((hruns _ v).mp hv)
    exact ⟨_, w, hnumber _ v hv, hbody, hset⟩
  · rw [hexecute, ((hruns k u).mp hu).last fun v hv => hlast v ((hruns _ v).mpr hv)]

/-- A `for` whose body always ends, without a break or a return, and does not declare the
counter anew, ends, and is made up of the runs of its body. In front of each run the counter reads
the start and as many steps as there were laps before, in the integers, and the laps are those for
which this is on the right side of the end. -/
theorem for_counts {counter : String} {span : Span}
    (hbounds : loopRange (call nesting) fuel e.span.start e s = .ok bounds t)
    (hdeclares : b.declares counter = false)
    (hbody : ∀ k u, RunsBody nesting fuel e counter b s k u →
      ∃ v, execute (call nesting) fuel b u = .ok () v ∧ v.signals.endsLoop = false) :
    (∃ v, execute (call nesting) fuel (.forLoop counter e b span) s = .ok () v) ∧
      Unrolls nesting fuel counter e b span bounds s t ∧
      (∀ k u, RunsBody nesting fuel e counter b s k u → u.Reads counter (bounds.valueAt k)) ∧
      ∀ k, (∃ u, RunsBody nesting fuel e counter b s k u) ↔ bounds.Admits (bounds.valueAt k) := by
  obtain ⟨hstep, -⟩ := loopRange_ok hbounds
  have henter := enterFor_eq bounds counter t
  obtain ⟨hrooted, hcounts⟩ := enterFor_counts henter
  generalize (if reusesCounter t counter then t else _) = s₂ at henter hrooted hcounts
  have hruns := runsBody_iff (b := b) hbounds henter
  obtain ⟨⟨v, hv⟩, hvalues, hnumbers⟩ := forLoop_counts hstep (retains_execute nesting fuel b hdeclares)
    (Nat.le_refl bounds.count) hrooted hcounts fun k u h => hbody k u ((hruns k u).mpr h)
  refine ⟨ends_for span hbounds henter hv, unrolls hbounds,
    fun k u h => hvalues k u ((hruns k u).mp h), fun k => ?_⟩
  rw [← LoopRange.lt_count_iff hstep, ← hnumbers k]
  exact exists_congr fun u => hruns k u

/-- A loop down to the least integer in steps of two, with a body that stores in the counter. The
last step would leave the 64 bits. -/
theorem for_counts_downTo :
    let e : Expr := .range (.integer (-9223372036854775803) default) (.integer .minValue default)
      false true (some (.integer 2 default)) default
    let b : Stmt := .assign "i" .set (some (.integer 7 default)) default
    let bounds : LoopRange := ⟨-9223372036854775803, .minValue, 2, false, true⟩
    loopRange (call 1) 1 e.span.start e .new = .ok bounds .new ∧ b.declares "i" = false ∧
      (∀ k u, RunsBody 1 1 e "i" b .new k u →
        ∃ v, execute (call 1) 1 b u = .ok () v ∧ v.signals.endsLoop = false) ∧
      (∃ v, execute (call 1) 1 (.forLoop "i" e b default) .new = .ok () v) ∧
      Unrolls 1 1 "i" e b default bounds .new .new ∧
      (∀ k u, RunsBody 1 1 e "i" b .new k u → u.Reads "i" (bounds.valueAt k)) ∧
      ∀ k, (∃ u, RunsBody 1 1 e "i" b .new k u) ↔ bounds.Admits (bounds.valueAt k) := by
  intro e b bounds
  have hbounds : loopRange (call 1) 1 e.span.start e .new = .ok bounds .new := rfl
  have hbody : ∀ k u, RunsBody 1 1 e "i" b .new k u →
      ∃ v, execute (call 1) 1 b u = .ok () v ∧ v.signals.endsLoop = false := by
    intro k u hu
    have henter := enterFor_eq bounds "i" .new
    have hstarts := (runsBody_iff hbounds henter k u).mp hu
    have hcount : bounds.count = 3 := by decide
    rw [hcount] at hstarts
    cases hstarts with
    | first hu =>
      cases hu
      exact ⟨_, rfl, rfl⟩
    | later hlap hstarts =>
      cases hlap
      cases hstarts with
      | first hu =>
        cases hu
        exact ⟨_, rfl, rfl⟩
      | later hlap hstarts =>
        cases hlap
        cases hstarts with
        | first hu =>
          cases hu
          exact ⟨_, rfl, rfl⟩
        | later _ hstarts => cases hstarts
  exact ⟨hbounds, rfl, hbody, for_counts hbounds rfl hbody⟩

end Eval

end ScriptLang
