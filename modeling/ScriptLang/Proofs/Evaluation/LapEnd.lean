import ScriptLang.Proofs.Evaluation.Counting
import ScriptLang.Proofs.Evaluation.Halting

/-!
# How laps end

Of the laps that a loop counts, those are run that the body lets it come to. How the body
leaves each lap tells which these are, and whether the loop ends behind them.
-/

namespace ScriptLang

/-- How a body leaves a lap. -/
inductive LapEnd where
  /-- The next lap is due, if there is one. -/
  | again
  /-- The loop is left. -/
  | broken
  /-- More than the loop is left: the body returned or failed. -/
  | gone
  deriving DecidableEq

/-- Of as many laps, the body is entered in the one of a number. -/
def EntersLap : Nat → (Nat → LapEnd) → Nat → Prop
  | 0, _, _ => False
  | _ + 1, _, 0 => True
  | laps + 1, ends, k + 1 => ends 0 = .again ∧ EntersLap laps (fun j => ends (j + 1)) k

/-- The loop is left behind so many laps. -/
def LeavesBehind : Nat → (Nat → LapEnd) → Nat → Prop
  | 0, _, k => k = 0
  | laps + 1, ends, k =>
    (ends 0 = .again ∧ ∃ j, k = j + 1 ∧ LeavesBehind laps (fun i => ends (i + 1)) j) ∨
      ends 0 = .broken ∧ k = 1

/-- A loop that is left was in all the laps it is left behind, and more than the loop was left
in none of them. -/
theorem leavesBehind_iff {laps k : Nat} {ends : Nat → LapEnd} :
    LeavesBehind laps ends k ↔
      (∀ j, EntersLap laps ends j ↔ j < k) ∧ ∀ j < k, ends j ≠ .gone := by
  induction laps generalizing k ends with
  | zero =>
    simp only [LeavesBehind, EntersLap]
    constructor
    · rintro rfl
      simp
    · rintro ⟨h, -⟩
      exact Nat.eq_zero_of_not_pos fun hpos => (h 0).mpr hpos
  | succ laps ih =>
    constructor
    · rintro (⟨hends, j, rfl, h⟩ | ⟨hends, rfl⟩)
      · obtain ⟨henters, hgone⟩ := ih.mp h
        refine ⟨fun i => ?_, fun i hi => ?_⟩
        · cases i with
          | zero => simp [EntersLap]
          | succ i => simp [EntersLap, hends, henters]
        · cases i with
          | zero => simp [hends]
          | succ i => exact hgone i (Nat.lt_of_succ_lt_succ hi)
      · refine ⟨fun i => ?_, fun i hi => ?_⟩
        · cases i with
          | zero => simp [EntersLap]
          | succ i => simp [EntersLap, hends]
        · obtain rfl : i = 0 := by omega
          simp [hends]
    · rintro ⟨henters, hgone⟩
      have hpos : 0 < k := (henters 0).mp trivial
      obtain ⟨k, rfl⟩ := Nat.exists_eq_succ_of_ne_zero (Nat.ne_of_gt hpos)
      cases hends : ends 0 with
      | again =>
        refine .inl ⟨hends, k, rfl, ih.mpr ⟨fun j => ?_, fun j hj => hgone (j + 1) (by omega)⟩⟩
        have h := henters (j + 1)
        simp only [EntersLap, hends, true_and] at h
        exact h.trans (by omega)
      | broken =>
        have h := henters 1
        simp only [EntersLap, hends, false_and, false_iff, reduceCtorEq] at h
        exact .inr ⟨hends, by omega⟩
      | gone => exact absurd hends (hgone 0 hpos)

namespace Eval

variable {range : LoopRange} {counter : String} {body : Eval Unit} {laps k : Nat} {n : Int64}
  {s u : Evaluation} {ends : Nat → LapEnd}

/-- The body leaves a lap in this way, if it is run from the state. -/
def Ends (body : Eval Unit) (u : Evaluation) : LapEnd → Prop
  | .again => ∃ v, body u = .ok () v ∧ v.signals.endsLoop = false
  | .broken => ∃ v, body u = .ok () v ∧ v.signals.breaking = true ∧ v.signals.returning = false
  | .gone => ∀ v, body u = .ok () v → v.signals.returning = true

/-- A body that halts leaves more than the loop. -/
theorem Ends.gone {e : LapEnd} {h : Halt} (he : Ends body u e) (hh : Halts body u h) :
    e = .gone := by
  obtain ⟨w, hw⟩ := hh
  cases e with
  | again | broken =>
    obtain ⟨v, hv, -⟩ := he
    cases hw.symm.trans hv
  | gone => rfl

/-- The counter was just set to the number. -/
def Handed (counter : String) (n : Int64) (u : Evaluation) : Prop :=
  ∃ s, (do setCounter counter n; modifySignals .clearLoop : Eval Unit) s = .ok () u

/-- The loop goes on exactly if the body says so. -/
theorem lap_again_iff (hu : (do setCounter counter n; modifySignals .clearLoop : Eval Unit) s =
      .ok () u) {e : LapEnd} (he : Ends body u e) :
    (∃ t, (do setCounter counter n; lap body : Eval Bool) s = .ok true t) ↔ e = .again := by
  constructor
  · rintro ⟨t, hlap⟩
    obtain ⟨_, s₁, hset, hclear⟩ := bind_ok.mp hu
    have hbody := hlap
    rw [bind_of_ok _ hset, lap, bind_of_ok _ hclear] at hbody
    obtain ⟨_, v, hv, -⟩ := bind_ok.mp hbody
    rw [countedLap_ok hu hv] at hlap
    have hends : v.signals.endsLoop = false := by
      cases h : v.signals.endsLoop with
      | false => rfl
      | true =>
        rw [h] at hlap
        cases hlap
    have hneither : v.signals.breaking = false ∧ v.signals.returning = false :=
      Bool.or_eq_false_iff.mp hends
    cases e with
    | again => rfl
    | broken =>
      obtain ⟨v', hv', hbreaking, -⟩ := he
      cases hv.symm.trans hv'
      rw [hneither.1] at hbreaking
      cases hbreaking
    | gone =>
      have hreturning := he v hv
      rw [hneither.2] at hreturning
      cases hreturning
  · rintro rfl
    obtain ⟨v, hv, hends⟩ := he
    have hlap := countedLap_ok hu hv
    rw [hends] at hlap
    exact ⟨_, hlap⟩

/-- The body is run in the laps it lets the loop come to, with their numbers. -/
theorem startsBody_iff (hends : ∀ k u, StartsBody range counter body laps n s k u →
      Ends body u (ends k)) (k : Nat) :
    ((∃ u, StartsBody range counter body laps n s k u) ↔ EntersLap laps ends k) ∧
      ∀ u, StartsBody range counter body laps n s k u → Handed counter (range.numberFrom n k) u := by
  induction laps generalizing n s k ends with
  | zero =>
    have hnone : ∀ u, ¬ StartsBody range counter body 0 n s k u := fun u h => by cases h
    exact ⟨⟨fun ⟨u, h⟩ => (hnone u h).elim, False.elim⟩, fun u h => (hnone u h).elim⟩
  | succ laps ih =>
    obtain ⟨u₀, hu₀⟩ := handed_ok counter n s
    have hagain := lap_again_iff hu₀ (hends 0 u₀ (.first hu₀))
    cases k with
    | zero =>
      refine ⟨⟨fun _ => trivial, fun _ => ⟨u₀, .first hu₀⟩⟩, fun u h => ?_⟩
      cases h with
      | first hu => exact ⟨s, hu⟩
    | succ k =>
      have hlater := fun t hlap => ih (n := range.next n) (s := t)
        (fun j u h => hends (j + 1) u (.later hlap h)) k
      refine ⟨⟨fun ⟨u, h⟩ => ?_, fun ⟨h0, h⟩ => ?_⟩, fun u h => ?_⟩
      · cases h with
        | later hlap h => exact ⟨hagain.mp ⟨_, hlap⟩, (hlater _ hlap).1.mp ⟨u, h⟩⟩
      · obtain ⟨t, hlap⟩ := hagain.mpr h0
        obtain ⟨u, hu⟩ := (hlater t hlap).1.mpr h
        exact ⟨u, .later hlap hu⟩
      · cases h with
        | later hlap h => exact (hlater _ hlap).2 u h

/-- The laps end behind one the body breaks off, or behind the last one. -/
theorem forLoop_ok (hends : ∀ k u, StartsBody range counter body laps n s k u →
      Ends body u (ends k)) (h : LeavesBehind laps ends k) :
    ∃ t, forLoop range counter body laps n s = .ok () t := by
  induction laps generalizing n s k ends with
  | zero => exact ⟨s, rfl⟩
  | succ laps ih =>
    obtain ⟨u₀, hu₀⟩ := handed_ok counter n s
    have hfirst := hends 0 u₀ (.first hu₀)
    rcases h with ⟨h0, j, -, h⟩ | ⟨h0, -⟩
    · obtain ⟨t, hlap⟩ := (lap_again_iff hu₀ hfirst).mpr h0
      obtain ⟨t', ht'⟩ := ih (fun j u h => hends (j + 1) u (.later hlap h)) h
      exact ⟨t', (forLoop_succ hlap laps).trans ht'⟩
    · rw [h0] at hfirst
      obtain ⟨v, hv, hbreaking, -⟩ := hfirst
      have hlap := countedLap_ok hu₀ hv
      rw [Signals.endsLoop, hbreaking] at hlap
      exact ⟨_, forLoop_succ hlap laps⟩

/-- Behind a lap the counter can count on. -/
theorem counts_of_lap (hk : Keeps (Evaluation.Retains counter) body) (hs : s.environment.Rooted)
    (hc : s.Counts counter) {go : Bool} {t : Evaluation}
    (hlap : (do setCounter counter n; lap body : Eval Bool) s = .ok go t) :
    t.environment.Rooted ∧ t.Counts counter := by
  obtain ⟨u, hu, hur, huc, -⟩ := startBody_ok hs hc n
  obtain ⟨_, s₁, hset, hclear⟩ := bind_ok.mp hu
  have hbody := hlap
  rw [bind_of_ok _ hset, lap, bind_of_ok _ hclear] at hbody
  obtain ⟨_, v, hv, -⟩ := bind_ok.mp hbody
  have hretains := hk u
  rw [after_ok hv] at hretains
  rw [countedLap_ok hu hv] at hlap
  cases hlap
  exact ⟨(hretains hur).1, huc.of_retains hur hretains⟩

/-- Where the body does not declare the counter anew, it reads the number of the lap there. -/
theorem StartsBody.reads (h : StartsBody range counter body laps n s k u)
    (hk : Keeps (Evaluation.Retains counter) body) (hs : s.environment.Rooted)
    (hc : s.Counts counter) : u.Reads counter (range.numberFrom n k).toInt := by
  induction h with
  | first hu =>
    obtain ⟨u', hu', -, -, hreads⟩ := startBody_ok hs hc _
    cases hu.symm.trans hu'
    exact hreads
  | later hlap _ ih =>
    obtain ⟨ht, htc⟩ := counts_of_lap hk hs hc hlap
    exact ih ht htc

/-! ## In front of the laps -/

/-- The step of a range, which is not checked. -/
def uncheckedStep (call : Invocation) (laps : Nat) : Option Expr → Eval Int64
  | none => return 1
  | some e => do toBound (← evaluate call laps e) e.span.start

/-- The bounds of a range, and its step, which is not checked. -/
def uncheckedRange (call : Invocation) (laps : Nat) (position : Position) : Expr → Eval LoopRange
  | .group inner _ => uncheckedRange call laps position inner
  | .range start stop excludesStop descending step _ => do
    let a ← toBound (← evaluate call laps start) start.span.start
    let b ← toBound (← evaluate call laps stop) stop.span.start
    return ⟨a, b, ← uncheckedStep call laps step, excludesStop, descending⟩
  | _ => fail .expectedRange position

variable {call : Invocation} {fuel : Nat} {position : Position} {bounds : LoopRange}
  {t : Evaluation}

/-- The flags are those of the range, and the step goes without saying or is checked. -/
theorem uncheckedRange_ok : ∀ {e : Expr}, uncheckedRange call fuel position e s = .ok bounds t →
    ∃ first stop step span,
      e.ungroup = .range first stop bounds.excludesStop bounds.descending step span ∧
      (step = none → bounds.step = 1) ∧ ∃ place, loopRange call fuel position e s =
        (do checkStep bounds.step place; return bounds : Eval LoopRange) t
  | .group inner _, h => uncheckedRange_ok (e := inner) h
  | .range first stop excludesStop descending step span, h => by
    obtain ⟨v, s₁, hv, h⟩ := bind_ok.mp h
    obtain ⟨a, s₂, ha, h⟩ := bind_ok.mp h
    obtain ⟨w, s₃, hw, h⟩ := bind_ok.mp h
    obtain ⟨b, s₄, hb, h⟩ := bind_ok.mp h
    obtain ⟨n, s₅, hn, h⟩ := bind_ok.mp h
    obtain ⟨rfl, rfl⟩ := pure_ok.mp h
    refine ⟨first, stop, step, span, rfl, ?_, ?_⟩
    · rintro rfl
      exact (pure_ok.mp hn).1
    · rw [loopRange, bind_of_ok _ hv, bind_of_ok _ ha, bind_of_ok _ hw, bind_of_ok _ hb]
      cases step with
      | none =>
        obtain ⟨rfl, rfl⟩ := pure_ok.mp hn
        exact ⟨default, rfl⟩
      | some e =>
        obtain ⟨x, s₆, hx, hn⟩ := bind_ok.mp hn
        refine ⟨e.span.start, ?_⟩
        rw [loopStep, bind_assoc, bind_of_ok _ hx, bind_assoc, bind_of_ok _ hn, bind_assoc]
        simp only [pure_bind]

/-! ## The statement -/

/-- A `for` fails for this cause before its body is run at all. -/
def FailsAtOnce (nesting fuel : Nat) (counter : String) (range : Expr) (body : Stmt) (span : Span)
    (s : Evaluation) (cause : Cause) : Prop :=
  (∃ position t, execute (Eval.call nesting) fuel (.forLoop counter range body span) s =
      .error (.fault ⟨cause, position⟩) t) ∧
    ∀ k u, ¬ RunsBody nesting fuel range counter body s k u

section

variable {nesting : Nat} {e : Expr} {b : Stmt} {span : Span} {cause : Cause}

/-- If the bounds are there and the step is positive, the laps are ahead. -/
theorem loopRange_of_pos (hbounds : uncheckedRange (Eval.call nesting) fuel position e s =
      .ok bounds t) (hzero : ¬ bounds.step = 0) (hneg : ¬ bounds.step < 0) :
    loopRange (Eval.call nesting) fuel position e s = .ok bounds t := by
  obtain ⟨_, _, _, _, -, -, place, hplace⟩ := uncheckedRange_ok hbounds
  have hcheck := checkStep_eq bounds.step place t
  rw [if_neg hzero, if_neg hneg] at hcheck
  exact hplace.trans (bind_of_ok _ hcheck)

/-- If the range is refused, so is the loop, at once. -/
theorem failsAtOnce_of_range {refused : Cause} {place : Position}
    (h : loopRange (Eval.call nesting) fuel e.span.start e s = .error (.fault ⟨refused, place⟩) t) :
    FailsAtOnce nesting fuel counter e b span s cause ↔ cause = refused := by
  have hfails : execute (Eval.call nesting) fuel (.forLoop counter e b span) s =
      .error (.fault ⟨refused, place⟩) t := bind_of_error _ h
  constructor
  · rintro ⟨⟨place', t', herror⟩, -⟩
    cases hfails.symm.trans herror
    rfl
  · rintro rfl
    exact ⟨⟨place, t, hfails⟩, fun _ _ ⟨_, _, _, hbounds, _⟩ => by cases h.symm.trans hbounds⟩

/-- A loop with a positive step does not fail without running its body. -/
theorem not_failsAtOnce (h : loopRange (Eval.call nesting) fuel e.span.start e s = .ok bounds t) :
    ¬ FailsAtOnce nesting fuel counter e b span s cause := by
  rintro ⟨⟨place, t', herror⟩, hnone⟩
  have henter := enterFor_eq bounds counter t
  generalize (if reusesCounter t counter then t else _) = s₂ at henter
  cases hcount : bounds.count with
  | zero =>
    have hloop : forLoop bounds counter (execute (Eval.call nesting) fuel b) bounds.count
        bounds.start s₂ = .ok () s₂ := by
      rw [hcount]
      rfl
    obtain ⟨v, hv⟩ := ends_for span h henter hloop
    cases herror.symm.trans hv
  | succ laps =>
    obtain ⟨u, hu⟩ := handed_ok counter bounds.start s₂
    refine hnone 0 u ((runsBody_iff h henter 0 u).mpr ?_)
    rw [hcount]
    exact .first hu

/-- Only a step that is not positive makes a loop fail at once, once its bounds are there. -/
theorem failsAtOnce_iff
    (h : uncheckedRange (Eval.call nesting) fuel e.span.start e s = .ok bounds t) :
    FailsAtOnce nesting fuel counter e b span s cause ↔
      bounds.step = 0 ∧ cause = .zeroStep ∨
        bounds.step < 0 ∧ cause = .negativeStep bounds.step := by
  obtain ⟨_, _, _, _, -, -, place, hplace⟩ := uncheckedRange_ok h
  have hcheck := checkStep_eq bounds.step place t
  by_cases hzero : bounds.step = 0
  · rw [if_pos hzero] at hcheck
    rw [failsAtOnce_of_range (hplace.trans (bind_of_error _ hcheck)), hzero]
    simp
  by_cases hneg : bounds.step < 0
  · rw [if_neg hzero, if_pos hneg] at hcheck
    rw [failsAtOnce_of_range (hplace.trans (bind_of_error _ hcheck))]
    simp [hzero, hneg]
  · refine iff_of_false (not_failsAtOnce (loopRange_of_pos h hzero hneg)) ?_
    rintro (⟨h0, -⟩ | ⟨hn, -⟩)
    · exact hzero h0
    · exact hneg hn

end

end Eval

end ScriptLang
