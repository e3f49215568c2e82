import ScriptLang.Proofs.Evaluation.LapEnd
import ScriptLang.Proofs.Machine.Laps

/-!
# Compiled loops count as evaluated ones

Whatever a body does besides, if it leaves the laps of the compiled loop as it leaves those of
the evaluated one, both loops enter it with the same numbers and end behind the same lap.
-/

namespace ScriptLang

open Assembly Assembly.Machine Gen

namespace Gen.ForPieces

/-- The body leaves a lap in this way, if it is entered in the state. A body that lets the
loop go on falls through or jumps to the end of the lap, and leaves the slots of the loop
alone; one that leaves more than the loop jumps to none of its labels. -/
def Ends (p : ForPieces) (L : Layout) (conduct : Conduct) (w : Machine) : LapEnd → Prop
  | .again => (∃ l w', conduct w l w') ∧ ∀ l w', conduct w l w' →
      (l = none ∨ l = some (.numbered .forNext p.number)) ∧ p.Spares L w w'
  | .broken => (∃ l w', conduct w l w') ∧ ∀ l w', conduct w l w' →
      l = some (.numbered .forEnd p.number)
  | .gone => ∀ l w', conduct w l w' → ∃ l', l = some l' ∧ ∀ mark, l' ≠ .numbered mark p.number

variable {p : ForPieces} {L : Layout} {base : BitVec 64} {r : LoopRange} {n : Int64}
  {conduct : Conduct} {ends : Nat → LapEnd} {a c : Configuration} {w w' : Machine}
  {laps k : Nat} {l : Option Label}

theorem rests_entry : p.outline.Rests ⟨.inside p.entry, w⟩ := Outline.rests_gap p.gap_outline

theorem rests_last : p.outline.Rests ⟨.inside p.last, w⟩ :=
  Outline.rests_end (Nat.le_of_eq p.length_outline)

theorem gets_last_iff : Outline.Gets L p.outline conduct k ⟨.inside p.last, w⟩ c ↔
    k = 0 ∧ c = ⟨.inside p.last, w⟩ := by
  constructor
  · intro h
    obtain ⟨rfl, rfl⟩ := h.of_rests rests_last fun q hq => by
      cases hq
      rw [List.getElem?_eq_none (Nat.le_of_eq p.length_outline)]
      simp
    exact ⟨rfl, rfl⟩
  · rintro ⟨rfl, rfl⟩
    exact .refl _

/-- Behind a body that lets the loop go on, the lap is ended. -/
theorem Ends.behind_again (h : p.Ends L conduct w .again) (hc : conduct w l w') :
    p.outline.behind p.entry l = .inside (p.entry + 1) ∧ p.Spares L w w' := by
  obtain ⟨rfl | rfl, hs⟩ := h.2 l w' hc
  · exact ⟨rfl, hs⟩
  · exact ⟨p.target_next, hs⟩

/-- Behind a body that breaks the loop off, the loop is left. -/
theorem Ends.behind_broken (h : p.Ends L conduct w .broken) (hc : conduct w l w') :
    Outline.Straight L p.outline ⟨p.outline.behind p.entry l, w'⟩ ⟨.inside p.last, w'⟩ := by
  obtain rfl := h.2 l w' hc
  rw [Outline.behind, p.target_end]
  exact .label (p.getElem?_outline 12) (.refl _)

/-- Behind a body that leaves more than the loop, the loop is not come back to. -/
theorem Ends.behind_gone (h : p.Ends L conduct w .gone) (hc : conduct w l w') {q : Nat}
    {m : Machine} :
    ¬ Outline.Gets L p.outline conduct k ⟨p.outline.behind p.entry l, w'⟩ ⟨.inside q, m⟩ := by
  obtain ⟨l, rfl, hl⟩ := h l w' hc
  rw [Outline.behind, p.target_other hl]
  intro hgets
  cases (hgets.of_rests Outline.rests_outside (by rintro q ⟨⟩)).2

/-- From a configuration with so many laps to go, the body is entered in those it lets the
loop come to, with their numbers, and the loop is left behind them. -/
structure Laps (p : ForPieces) (L : Layout) (conduct : Conduct) (r : LoopRange) (laps : Nat)
    (ends : Nat → LapEnd) (n : Int64) (k : Nat) (a : Configuration) : Prop where
  enters : (∃ w, Outline.Gets L p.outline conduct k a ⟨.inside p.entry, w⟩) ↔
    EntersLap laps ends k
  value : ∀ w, Outline.Gets L p.outline conduct k a ⟨.inside p.entry, w⟩ →
    w.load (p.copy.address L (w.registers .rbp)) = (r.numberFrom n k).toBitVec
  leaves : (∃ w, Outline.Gets L p.outline conduct k a ⟨.inside p.last, w⟩) ↔
    LeavesBehind laps ends k

namespace Laps

variable {b : Configuration}

theorem of_straight (hrun : Outline.Straight L p.outline a b)
    (h : Laps p L conduct r laps ends n k b) : Laps p L conduct r laps ends n k a where
  enters := (exists_congr fun _ => hrun.gets_iff rests_entry).trans h.enters
  value w hw := h.value w (hrun.cut rests_entry hw)
  leaves := (exists_congr fun _ => hrun.gets_iff rests_last).trans h.leaves

theorem last_ne_entry : Assembly.Place.inside p.last ≠ .inside p.entry := by simp [entry, last]

/-- The loop is left. -/
theorem ended : Laps p L conduct r 0 ends n k ⟨.inside p.last, w⟩ := by
  have hentry : ∀ w', ¬ Outline.Gets L p.outline conduct k ⟨.inside p.last, w⟩
      ⟨.inside p.entry, w'⟩ := fun w' hgets =>
    last_ne_entry (congrArg Configuration.place (gets_last_iff.mp hgets).2).symm
  refine ⟨⟨fun ⟨w', hw⟩ => hentry w' hw, False.elim⟩, fun w' hw => (hentry w' hw).elim,
    ⟨fun ⟨w', hw⟩ => (gets_last_iff.mp hw).1, ?_⟩⟩
  rintro rfl
  exact ⟨w, .refl _⟩

section

variable (hcopy : w.load (p.copy.address L (w.registers .rbp)) = n.toBitVec)

include hcopy

/-- The body is entered. -/
theorem first : Laps p L conduct r (laps + 1) ends n 0 ⟨.inside p.entry, w⟩ := by
  have hzero : ∀ c, Outline.Gets L p.outline conduct 0 ⟨.inside p.entry, w⟩ c ↔
      c = ⟨.inside p.entry, w⟩ := fun c => by
    rw [Outline.gets_gap_iff p.gap_outline]
    simp
  refine ⟨⟨fun _ => trivial, fun _ => ⟨w, (hzero _).mpr rfl⟩⟩, fun w' hw => ?_,
    ⟨fun ⟨w', hw⟩ => ?_, fun h => ?_⟩⟩
  · cases (hzero _).mp hw
    exact hcopy
  · exact absurd (congrArg Configuration.place ((hzero _).mp hw)) last_ne_entry
  · rcases h with ⟨-, j, hj, -⟩ | ⟨-, h1⟩ <;> omega

end

theorem gets_succ_iff : Outline.Gets L p.outline conduct (k + 1) ⟨.inside p.entry, w⟩ c ↔
    ∃ l w', conduct w l w' ∧
      Outline.Gets L p.outline conduct k ⟨p.outline.behind p.entry l, w'⟩ c := by
  rw [Outline.gets_gap_iff p.gap_outline]
  simp

/-- The other laps come behind a body that lets the loop go on. -/
theorem again (h0 : ends 0 = .again) (hw : p.Ends L conduct w .again)
    (hlater : ∀ l w', conduct w l w' → Laps p L conduct r laps (fun j => ends (j + 1)) (r.next n) k
      ⟨p.outline.behind p.entry l, w'⟩) :
    Laps p L conduct r (laps + 1) ends n (k + 1) ⟨.inside p.entry, w⟩ := by
  obtain ⟨⟨l₁, w₁, hc₁⟩, -⟩ := hw
  have h₁ := hlater l₁ w₁ hc₁
  refine ⟨⟨fun ⟨w', hw⟩ => ?_, fun ⟨_, h⟩ => ?_⟩, fun w' hw => ?_,
    ⟨fun ⟨w', hw⟩ => ?_, fun h => ?_⟩⟩
  · obtain ⟨l, m, hc, hm⟩ := gets_succ_iff.mp hw
    exact ⟨h0, (hlater l m hc).enters.mp ⟨w', hm⟩⟩
  · obtain ⟨w', hw⟩ := h₁.enters.mpr h
    exact ⟨w', gets_succ_iff.mpr ⟨l₁, w₁, hc₁, hw⟩⟩
  · obtain ⟨l, m, hc, hm⟩ := gets_succ_iff.mp hw
    exact (hlater l m hc).value w' hm
  · obtain ⟨l, m, hc, hm⟩ := gets_succ_iff.mp hw
    exact .inl ⟨h0, k, rfl, (hlater l m hc).leaves.mp ⟨w', hm⟩⟩
  · rcases h with ⟨-, j, hj, h⟩ | ⟨hbroken, -⟩
    · obtain rfl := Nat.succ.inj hj
      obtain ⟨w', hw⟩ := h₁.leaves.mpr h
      exact ⟨w', gets_succ_iff.mpr ⟨l₁, w₁, hc₁, hw⟩⟩
    · cases h0.symm.trans hbroken

/-- A body that breaks the loop off is the last. -/
theorem broken (h0 : ends 0 = .broken) (hw : p.Ends L conduct w .broken) :
    Laps p L conduct r (laps + 1) ends n (k + 1) ⟨.inside p.entry, w⟩ := by
  have hiff : ∀ c, p.outline.Rests c →
      (Outline.Gets L p.outline conduct (k + 1) ⟨.inside p.entry, w⟩ c ↔
        k = 0 ∧ ∃ l w', conduct w l w' ∧ c = ⟨.inside p.last, w'⟩) := by
    intro c hc
    rw [gets_succ_iff]
    constructor
    · rintro ⟨l, w', hconduct, hgets⟩
      obtain ⟨rfl, rfl⟩ := gets_last_iff.mp ((hw.behind_broken hconduct).cut hc hgets)
      exact ⟨rfl, l, w', hconduct, rfl⟩
    · rintro ⟨rfl, l, w', hconduct, rfl⟩
      exact ⟨l, w', hconduct, (hw.behind_broken hconduct).gets (.refl _)⟩
  have hentry : ∀ w', ¬ Outline.Gets L p.outline conduct (k + 1) ⟨.inside p.entry, w⟩
      ⟨.inside p.entry, w'⟩ := fun w' hgets => by
    obtain ⟨-, l, m, -, heq⟩ := (hiff _ rests_entry).mp hgets
    exact last_ne_entry (congrArg Configuration.place heq).symm
  refine ⟨⟨fun ⟨w', hgets⟩ => (hentry w' hgets).elim, fun ⟨h, _⟩ => ?_⟩,
    fun w' hgets => (hentry w' hgets).elim, ⟨fun ⟨w', hgets⟩ => ?_, fun h => ?_⟩⟩
  · cases h0.symm.trans h
  · obtain ⟨rfl, -⟩ := (hiff _ rests_last).mp hgets
    exact .inr ⟨h0, rfl⟩
  · rcases h with ⟨hagain, -⟩ | ⟨-, hk⟩
    · cases h0.symm.trans hagain
    · obtain rfl : k = 0 := by omega
      obtain ⟨⟨l, w', hconduct⟩, -⟩ := hw
      exact ⟨w', (hiff _ rests_last).mpr ⟨rfl, l, w', hconduct, rfl⟩⟩

/-- A body that leaves more than the loop is the last, and the loop is not left behind it. -/
theorem gone (h0 : ends 0 = .gone) (hw : p.Ends L conduct w .gone) :
    Laps p L conduct r (laps + 1) ends n (k + 1) ⟨.inside p.entry, w⟩ := by
  have hnever : ∀ q m, ¬ Outline.Gets L p.outline conduct (k + 1) ⟨.inside p.entry, w⟩
      ⟨.inside q, m⟩ := fun q m hgets => by
    obtain ⟨l, w', hconduct, hgets⟩ := gets_succ_iff.mp hgets
    exact hw.behind_gone hconduct hgets
  refine ⟨⟨fun ⟨w', hgets⟩ => (hnever _ w' hgets).elim, fun ⟨h, _⟩ => ?_⟩,
    fun w' hgets => (hnever _ w' hgets).elim,
    ⟨fun ⟨w', hgets⟩ => (hnever _ w' hgets).elim, fun h => ?_⟩⟩
  · cases h0.symm.trans h
  · rcases h with ⟨h, -⟩ | ⟨h, -⟩ <;> cases h0.symm.trans h

end Laps

/-- By induction on the laps that are to go. -/
theorem Poised.runs (h : p.Poised L base r laps n a) (ha : p.Apart L base) (hr : r.Fits p.slots)
    (hstep : 0 < r.step.toInt)
    (hends : ∀ k w, Outline.Gets L p.outline conduct k a ⟨.inside p.entry, w⟩ →
      p.Ends L conduct w (ends k)) (k : Nat) : Laps p L conduct r laps ends n k a := by
  induction laps generalizing n a ends k with
  | zero =>
    obtain ⟨m', hrun⟩ := h.ends hr hstep
    exact .of_straight hrun .ended
  | succ laps ih =>
    obtain ⟨w, hrun, hcopy, hlap⟩ := h.enters ha hr hstep
    have hw := hends 0 w (hrun.gets (.refl _))
    refine .of_straight hrun ?_
    cases k with
    | zero => exact .first hcopy
    | succ k =>
      cases h0 : ends 0 with
      | broken => exact .broken h0 (h0 ▸ hw)
      | gone => exact .gone h0 (h0 ▸ hw)
      | again =>
        rw [h0] at hw
        refine .again h0 hw fun l w' hc => ?_
        obtain ⟨hplace, hs⟩ := hw.behind_again hc
        obtain ⟨b, hb, hpoised⟩ := hlap w' hs
        rw [← hplace] at hb
        exact .of_straight hb (ih hpoised (fun j m hm => hends (j + 1) m
          (hrun.gets (Laps.gets_succ_iff.mpr ⟨l, w', hc, hb.gets hm⟩))) k)

/-! ## From the check of the step on -/

variable {m : Machine}

/-- The body is entered in a lap, from the state in which the step is the result. -/
def Enters (p : ForPieces) (L : Layout) (conduct : Conduct) (m : Machine) (k : Nat) (w : Machine) :
    Prop :=
  Outline.Gets L p.outline conduct k ⟨.inside 0, m⟩ ⟨.inside p.entry, w⟩

/-- The loop is left through its end behind so many laps. -/
def Leaves (p : ForPieces) (L : Layout) (conduct : Conduct) (m : Machine) (k : Nat) : Prop :=
  ∃ w, Outline.Gets L p.outline conduct k ⟨.inside 0, m⟩ ⟨.inside p.last, w⟩

/-- Control jumps to a trap before the body is entered at all. -/
def Traps (p : ForPieces) (L : Layout) (conduct : Conduct) (m : Machine) (t : Trap) : Prop :=
  ∃ w, Outline.Gets L p.outline conduct 0 ⟨.inside 0, m⟩ ⟨.outside (.trap t), w⟩

/-- From a loop, labels outside are reached through the body only. -/
theorem Poised.not_outside (h : p.Poised L base r laps n a) (ha : p.Apart L base)
    (hr : r.Fits p.slots) (hstep : 0 < r.step.toInt) {l : Label} :
    ¬ Outline.Gets L p.outline conduct 0 a ⟨.outside l, w⟩ := by
  intro hgets
  cases laps with
  | zero =>
    obtain ⟨m', hrun⟩ := h.ends hr hstep
    cases (gets_last_iff.mp (hrun.cut Outline.rests_outside hgets)).2
  | succ laps =>
    obtain ⟨w₀, hrun, -⟩ := h.enters ha hr hstep
    rcases (Outline.gets_gap_iff p.gap_outline).mp (hrun.cut Outline.rests_outside hgets) with
      ⟨-, heq⟩ | ⟨_, _, _, hk, -⟩
    · cases heq
    · cases hk

section

variable (h : p.Starts L r m) (ha : p.Apart L (m.registers .rbp))
  (ht : p.slots.step.type = .integer) (hone : p.step = none → r.step = 1)

include h ha ht hone

/-- If a trap is jumped to, the body is not entered, and the loop is not left. -/
theorem not_gets_of_trap {t : Trap} (hplace : p.afterStep r.step = .outside (.trap t)) {q : Nat}
    (hq : p.outline.Rests ⟨.inside q, w⟩) :
    ¬ Outline.Gets L p.outline conduct k ⟨.inside 0, m⟩ ⟨.inside q, w⟩ := by
  obtain ⟨m', hrun, -⟩ := straight_keep h ha ht hone
  rw [hplace] at hrun
  intro hgets
  cases ((hrun.cut hq hgets).of_rests Outline.rests_outside (by rintro q ⟨⟩)).2

variable (hr : r.Fits p.slots)

include hr

/-- A trap is jumped to at once if the step is not positive. -/
theorem traps_iff (t : Trap) : p.Traps L conduct m t ↔
    r.step = 0 ∧ t = .zeroStep ∨ r.step < 0 ∧ t = .negativeStep := by
  rw [← p.afterStep_eq_trap]
  obtain ⟨m', hrun, hholds⟩ := straight_keep h ha ht hone
  constructor
  · rintro ⟨w, hw⟩
    have hw := hrun.cut Outline.rests_outside hw
    cases hplace : p.afterStep r.step with
    | outside l =>
      rw [hplace] at hw
      exact congrArg Configuration.place (hw.of_rests Outline.rests_outside (by rintro q ⟨⟩)).2
    | inside q =>
      obtain ⟨rfl, h0, hn⟩ := p.afterStep_eq_inside hplace
      rw [hplace] at hw
      exact absurd hw ((Poised.lap (hholds h0 hn)).not_outside ha hr (Eval.toInt_pos h0 hn))
  · intro hplace
    rw [hplace] at hrun
    exact ⟨m', hrun.gets (.refl _)⟩

/-- If the step is positive, the laps are run. -/
theorem laps_of_pos (h0 : ¬ r.step = 0) (hn : ¬ r.step < 0)
    (hends : ∀ k w, p.Enters L conduct m k w → p.Ends L conduct w (ends k)) (k : Nat) :
    Laps p L conduct r r.count ends r.start k ⟨.inside 0, m⟩ := by
  obtain ⟨m', hrun, hholds⟩ := straight_keep h ha ht hone
  rw [afterStep, if_neg h0, if_neg hn] at hrun
  refine .of_straight hrun ?_
  exact (Poised.lap (hholds h0 hn)).runs ha hr (Eval.toInt_pos h0 hn)
    (fun k w hw => hends k w (hrun.gets hw)) k

end

end Gen.ForPieces

/-! ## The statement -/

section

variable (nesting fuel : Nat) (counter : String) (range : Expr) (body : Stmt) (span : Span)

/-- The code of a `for`, from where its step is the result, does what the evaluation does from the
first state, behind the bounds of which is the second one. -/
structure Gen.ForPieces.Follows (p : ForPieces) (L : Layout) (conduct : Conduct) (m : Machine)
    (ends : Nat → LapEnd) (σ τ : Evaluation) (bounds : LoopRange) : Prop where
  zeroStep : p.Traps L conduct m .zeroStep ↔
    Eval.FailsAtOnce nesting fuel counter range body span σ .zeroStep
  negativeStep : p.Traps L conduct m .negativeStep ↔
    Eval.FailsAtOnce nesting fuel counter range body span σ (.negativeStep bounds.step)
  /-- The laps in which the body is entered are the same. -/
  enters : ∀ k, (∃ w, p.Enters L conduct m k w) ↔
    ∃ u, Eval.RunsBody nesting fuel range counter body σ k u
  /-- The variable has the same number in them, -/
  value : ∀ k w u, p.Enters L conduct m k w →
    Eval.RunsBody nesting fuel range counter body σ k u →
    ∃ n : Int64, n.toInt = bounds.valueAt k ∧
      w.load (p.copy.address L (w.registers .rbp)) = n.toBitVec ∧
      Eval.Handed counter n u ∧ (body.declares counter = false → u.Reads counter n.toInt)
  /-- and the loop is left through its end behind the same lap. -/
  leaves : ∀ k, p.Leaves L conduct m k ↔
    (∃ υ, Eval.execute (Eval.call nesting) fuel (.forLoop counter range body span) σ = .ok () υ) ∧
      (∀ j, (∃ u, Eval.RunsBody nesting fuel range counter body σ j u) ↔ j < k) ∧
      ∀ j < k, ends j ≠ .gone
  /-- The evaluated loop is made up of the runs of its body, and ends in what the last one
  leaves. -/
  unrolls : 0 < bounds.step.toInt →
    Eval.Unrolls nesting fuel counter range body span bounds σ τ
  /-- Where its body halts, so does the evaluated loop, and the compiled one is not left through
  its end. -/
  halts : ∀ k u e, Eval.RunsBody nesting fuel range counter body σ k u →
    Eval.Halts (Eval.execute (Eval.call nesting) fuel body) u e →
    Eval.Halts (Eval.execute (Eval.call nesting) fuel (.forLoop counter range body span)) σ e ∧
      ∀ j, ¬ p.Leaves L conduct m j

variable {nesting fuel counter range body span} {p : ForPieces} {L : Layout} {conduct : Conduct}
  {m : Machine} {ends : Nat → LapEnd} {σ τ : Evaluation} {bounds : LoopRange}
  (h : p.Starts L bounds m) (ha : p.Apart L (m.registers .rbp)) (hr : bounds.Fits p.slots)
  (ht : p.slots.step.type = .integer) (hone : p.step = none → bounds.step = 1)
  (hbounds : Eval.uncheckedRange (Eval.call nesting) fuel range.span.start range σ = .ok bounds τ)

include h ha hr ht hone hbounds

/-- A step that is not positive is refused by both. -/
theorem Gen.ForPieces.follows_of_refused (hstep : bounds.step = 0 ∨ bounds.step < 0) :
    p.Follows nesting fuel counter range body span L conduct m ends σ τ bounds := by
  obtain ⟨t, ht'⟩ : ∃ t, bounds.step = 0 ∧ t = Trap.zeroStep ∨
      bounds.step < 0 ∧ t = Trap.negativeStep := by
    rcases hstep with hzero | hneg
    · exact ⟨_, .inl ⟨hzero, rfl⟩⟩
    · exact ⟨_, .inr ⟨hneg, rfl⟩⟩
  have hplace := (p.afterStep_eq_trap t).mpr ht'
  obtain ⟨cause, hcause⟩ : ∃ cause, Eval.FailsAtOnce nesting fuel counter range body span σ
      cause := by
    rcases hstep with hzero | hneg
    · exact ⟨_, (Eval.failsAtOnce_iff hbounds).mpr (.inl ⟨hzero, rfl⟩)⟩
    · exact ⟨_, (Eval.failsAtOnce_iff hbounds).mpr (.inr ⟨hneg, rfl⟩)⟩
  obtain ⟨⟨position, υ, herror⟩, hnone⟩ := hcause
  have hnever : ∀ k w, ¬ p.Enters L conduct m k w := fun k w =>
    not_gets_of_trap h ha ht hone hplace rests_entry
  refine ⟨?_, ?_, fun k => ⟨fun ⟨w, hw⟩ => (hnever k w hw).elim,
    fun ⟨u, hu⟩ => (hnone k u hu).elim⟩, fun k w u hw => (hnever k w hw).elim,
    fun k => ⟨fun ⟨w, hw⟩ => (not_gets_of_trap h ha ht hone hplace rests_last hw).elim,
      fun ⟨⟨υ', hυ⟩, _⟩ => by cases herror.symm.trans hυ⟩,
    fun hpos => ?_, fun k u _ hu => (hnone k u hu).elim⟩
  · rw [traps_iff h ha ht hone hr, Eval.failsAtOnce_iff hbounds]
    simp
  · rw [traps_iff h ha ht hone hr, Eval.failsAtOnce_iff hbounds]
    simp
  · rcases hstep with hzero | hneg
    · rw [hzero] at hpos
      exact absurd hpos (by decide)
    · exact absurd (Int64.lt_iff_toInt_lt.mp hneg) (Int.not_lt.mpr (Int.le_of_lt hpos))

/-- With a positive step, the laps are run by both. -/
theorem Gen.ForPieces.follows_of_pos (hzero : ¬ bounds.step = 0) (hneg : ¬ bounds.step < 0)
    (hbody : ∀ k u, Eval.RunsBody nesting fuel range counter body σ k u →
      Eval.Ends (Eval.execute (Eval.call nesting) fuel body) u (ends k))
    (hconduct : ∀ k w, p.Enters L conduct m k w → p.Ends L conduct w (ends k)) :
    p.Follows nesting fuel counter range body span L conduct m ends σ τ bounds := by
  have hrange := Eval.loopRange_of_pos hbounds hzero hneg
  have henter := Eval.enterFor_eq bounds counter τ
  obtain ⟨hrooted, hcounts⟩ := Eval.enterFor_counts henter
  generalize (if Eval.reusesCounter τ counter then τ else _) = s₂ at henter hrooted hcounts
  have hruns := Eval.runsBody_iff (b := body) hrange henter
  have hstarts := Eval.startsBody_iff fun k u hu => hbody k u ((hruns k u).mpr hu)
  have hlaps := laps_of_pos h ha ht hone hr hzero hneg hconduct
  have henters : ∀ k, (∃ u, Eval.RunsBody nesting fuel range counter body σ k u) ↔
      EntersLap bounds.count ends k := fun k =>
    (exists_congr fun u => hruns k u).trans (hstarts k).1
  have hleaves : ∀ k, p.Leaves L conduct m k ↔
      (∃ υ, Eval.execute (Eval.call nesting) fuel (.forLoop counter range body span) σ =
        .ok () υ) ∧
      (∀ j, (∃ u, Eval.RunsBody nesting fuel range counter body σ j u) ↔ j < k) ∧
      ∀ j < k, ends j ≠ .gone := by
    intro k
    rw [Leaves, (hlaps k).leaves]
    constructor
    · intro hk
      obtain ⟨v, hv⟩ := Eval.forLoop_ok (fun k u hu => hbody k u ((hruns k u).mpr hu)) hk
      obtain ⟨hlapped, hgone⟩ := leavesBehind_iff.mp hk
      exact ⟨Eval.ends_for span hrange henter hv, fun j => (henters j).trans (hlapped j), hgone⟩
    · rintro ⟨-, hlapped, hgone⟩
      exact leavesBehind_iff.mpr ⟨fun j => (henters j).symm.trans (hlapped j), hgone⟩
  refine ⟨?_, ?_, fun k => (hlaps k).enters.trans (henters k).symm, fun k w u hw hu => ?_,
    hleaves, fun _ => Eval.unrolls hrange, fun k u e hu he => ⟨?_, fun j hj => ?_⟩⟩
  · rw [traps_iff h ha ht hone hr, Eval.failsAtOnce_iff hbounds]
    simp
  · rw [traps_iff h ha ht hone hr, Eval.failsAtOnce_iff hbounds]
    simp
  · have hu := (hruns k u).mp hu
    exact ⟨bounds.numberFrom bounds.start k,
      LoopRange.toInt_numberFrom (Eval.toInt_pos hzero hneg) hu.lt, (hlaps k).value w hw,
      (hstarts k).2 u hu,
      fun hdeclares => hu.reads (Eval.retains_execute nesting fuel body hdeclares) hrooted hcounts⟩
  · exact (hu.reaches span).halts he
  · obtain ⟨-, hlapped, hgone⟩ := (hleaves j).mp hj
    exact hgone k ((hlapped k).mp ⟨u, hu⟩) ((hbody k u hu).gone he)

end

/-- The code of a `for` outside of its body does what the evaluation does, for whatever bounds
and step it is handed: it refuses the same steps before it enters its body at all, enters it
in the same laps with the same numbers, and is left through its end behind the same lap. Of
the body it takes that it leaves each lap as the evaluated one does, and the slots of the loop
alone. -/
theorem forLoop_follows {cells : List Slot} {s : Stage} {g : Generator} {counter : String}
    {range : Expr} {body : Stmt} {span : Span} (hs : s.generator.Rooted) (ht : s.Tidy cells)
    (hg : Gen.statement (.forLoop counter range body span) s.generator = .ok () g) :
    ∃ p : ForPieces, p.Spells range body ∧
      g.code = s.generator.code ++ (p.bounds ++ p.outline.fill p.body) ∧
      (∀ (L : Layout) (base : BitVec 64), g.frame.used ≤ 2 ^ 64 →
        (∀ cell ∈ cells, ∀ x, Assembly.Covers (cell.address L base) x →
          ¬ InFrame base 0 g.frame.used x) → p.Apart L base) ∧
      ∀ (L : Layout) (m : Machine) (conduct : Conduct) (ends : Nat → LapEnd) (nesting fuel : Nat)
        (σ τ : Evaluation) (bounds : LoopRange),
        g.frame.used ≤ 2 ^ 64 →
        (∀ cell ∈ cells, ∀ x, Assembly.Covers (cell.address L (m.registers .rbp)) x →
          ¬ InFrame (m.registers .rbp) 0 g.frame.used x) →
        Eval.uncheckedRange (Eval.call nesting) fuel range.span.start range σ = .ok bounds τ →
        p.Starts L bounds m →
        (∀ k u, Eval.RunsBody nesting fuel range counter body σ k u →
          Eval.Ends (Eval.execute (Eval.call nesting) fuel body) u (ends k)) →
        (∀ k w, p.Enters L conduct m k w → p.Ends L conduct w (ends k)) →
        p.Follows nesting fuel counter range body span L conduct m ends σ τ bounds := by
  obtain ⟨p, t, hspells, hcode, htidy, hslots, hcopy, hused⟩ := pieces_of_forLoop hs ht hg
  have hapart : ∀ (L : Layout) (base : BitVec 64), g.frame.used ≤ 2 ^ 64 →
      (∀ cell ∈ cells, ∀ x, Assembly.Covers (cell.address L base) x →
        ¬ InFrame base 0 g.frame.used x) → p.Apart L base := fun L base hfits hcells =>
    ForPieces.apart htidy hslots hcopy (Int.le_trans hused hfits) fun cell hcell x hx hin =>
      hcells cell hcell x hx (hin.mono (Int.le_refl _) hused)
  refine ⟨p, hspells, hcode.trans (congrArg _ p.code_eq), hapart, ?_⟩
  intro L m conduct ends nesting fuel σ τ bounds hfits hcells hbounds hstarts hbody hconduct
  have ha := hapart L (m.registers .rbp) hfits hcells
  obtain ⟨_, _, step, _, hrange, -, -, hstep⟩ := hspells.bounds
  obtain ⟨_, _, step', _, hrange', hone, -⟩ := Eval.uncheckedRange_ok hbounds
  obtain ⟨-, -, hexcludes, hdescending, rfl, -⟩ := Expr.range.inj (hrange'.symm.trans hrange)
  have hr : bounds.Fits p.slots := ⟨hexcludes, hdescending⟩
  have hone : p.step = none → bounds.step = 1 := fun hnone => by
    rw [hnone] at hstep
    cases hstep
    exact hone rfl
  by_cases hrefused : bounds.step = 0 ∨ bounds.step < 0
  · exact ForPieces.follows_of_refused hstarts ha hr hslots.types.2.2 hone hbounds hrefused
  · obtain ⟨hzero, hneg⟩ := not_or.mp hrefused
    exact ForPieces.follows_of_pos hstarts ha hr hslots.types.2.2 hone hbounds hzero hneg hbody
      hconduct

/-- A loop up to the greatest integer in steps of three, with a body that stores in the counter,
which is a variable of the function. The last step would leave the 64 bits. -/
theorem forLoop_follows_overflow :
    let range : Expr := .range (.integer 9223372036854775800 default) (.integer .maxValue default)
      false false (some (.integer 3 default)) default
    let body : Stmt := .assign "i" .set (some (.integer 7 default)) default
    let bounds : LoopRange := ⟨9223372036854775800, .maxValue, 3, false, false⟩
    let s : Stage := ((⟨.new, []⟩ : Stage).declaring "n" .integer true).declaring "i" .integer true
    let e := Environment.new.declare "n" (.integer 41) .int true
    let σ : Evaluation := { Evaluation.new with
      environment := e.declare "i" (.integer 42) .int true
      output := "41\n" }
    s.generator.Rooted ∧ s.Tidy [] ∧
    ∃ g, Gen.statement (.forLoop "i" range body default) s.generator = .ok () g ∧
      g.frame.used ≤ 2 ^ 64 ∧
      Eval.uncheckedRange (Eval.call 1) 1 range.span.start range σ = .ok bounds σ ∧
      (∀ k u, Eval.RunsBody 1 1 range "i" body σ k u →
        Eval.Ends (Eval.execute (Eval.call 1) 1 body) u .again) ∧
      ∃ p : ForPieces, p.Spells range body ∧ ∃ (m : Machine) (conduct : Conduct),
        m.registers .rbp = 65536 ∧ p.Starts (fun _ => 0) bounds m ∧
        (∀ k w, p.Enters (fun _ => 0) conduct m k w → p.Ends (fun _ => 0) conduct w .again) ∧
        p.Follows 1 1 "i" range body default (fun _ => 0) conduct m (fun _ => .again) σ σ
          bounds ∧ p.Leaves (fun _ => 0) conduct m 3 := by
  intro range body bounds s e σ
  have hs : s.generator.Rooted := List.cons_ne_nil _ _
  have hnew : (⟨.new, []⟩ : Stage).Tidy [] := by
    refine ⟨.nil, fun scope hscope name slot hn => ?_, fun name slot hn => by cases hn⟩
    cases List.mem_singleton.mp hscope
    cases hn
  have ht : s.Tidy [] := (hnew.declaring _ _ _).declaring _ _ _
  obtain ⟨g, hg, hfits⟩ : ∃ g, Gen.statement (.forLoop "i" range body default) s.generator =
      .ok () g ∧ g.frame.used ≤ 2 ^ 64 := ⟨_, rfl, by decide⟩
  have hbounds : Eval.uncheckedRange (Eval.call 1) 1 range.span.start range σ =
      .ok bounds σ := rfl
  have hruns := Eval.runsBody_iff (b := body)
    (Eval.loopRange_of_pos hbounds (by decide) (by decide)) (Eval.enterFor_eq bounds "i" σ)
  rw [show bounds.count = 3 by decide] at hruns
  have hbody : ∀ k u, Eval.RunsBody 1 1 range "i" body σ k u →
      Eval.Ends (Eval.execute (Eval.call 1) 1 body) u .again := by
    intro k u hu
    cases (hruns k u).mp hu with
    | first hu =>
      cases hu
      exact ⟨_, rfl, rfl⟩
    | later hlap hstarts =>
      cases hlap
      cases hstarts with
      | first hu =>
        cases hu
        exact ⟨_, rfl, rfl⟩
      | later hlap hstarts =>
        cases hlap
        cases hstarts with
        | first hu =>
          cases hu
          exact ⟨_, rfl, rfl⟩
        | later _ hstarts => cases hstarts
  obtain ⟨p, hspells, -, hapart, hfollows⟩ := forLoop_follows hs ht hg
  have ha : ∀ base, p.Apart (fun _ => 0) base := fun base => hapart _ base hfits (by simp)
  let start := p.slots.counter.address (fun _ => 0) 65536
  let stop := p.slots.limit.address (fun _ => 0) 65536
  let m₀ : Machine := ⟨fun r => if r = .rax then 3 else 65536, .undefined, fun _ => 0⟩
  let m := (m₀.store stop bounds.stop.toBitVec).store start bounds.start.toBitVec
  have hstarts : p.Starts (fun _ => 0) bounds m := by
    refine ⟨Machine.load_store _ _ _, ?_, fun _ => rfl⟩
    exact (Machine.load_store_of_apart _ _ (ha _).counter_limit.symm).trans
      (Machine.load_store _ _ _)
  -- The body stores its number through the register of results.
  let conduct : Conduct := fun w l w' => l = none ∧
    w' = (w.set .rax 7).store (p.copy.address (fun _ => 0) (w.registers .rbp)) 7
  have hconduct : ∀ k w, p.Enters (fun _ => 0) conduct m k w →
      p.Ends (fun _ => 0) conduct w .again := by
    refine fun k w _ => ⟨⟨none, _, rfl, rfl⟩, ?_⟩
    rintro l w' ⟨rfl, rfl⟩
    exact ⟨.inl rfl, rfl, Machine.load_store_of_apart _ _ (ha _).copy_counter.symm,
      Machine.load_store_of_apart _ _ (ha _).copy_limit.symm,
      Machine.load_store_of_apart _ _ (ha _).copy_step.symm⟩
  have h := hfollows (fun _ => 0) m conduct (fun _ => .again) 1 1 σ σ bounds hfits (by simp) hbounds
    hstarts hbody hconduct
  have hlaps : ∀ j, (∃ u, Eval.RunsBody 1 1 range "i" body σ j u) ↔ j < 3 := fun j => by
    have hstarts := Eval.startsBody_iff (fun k u hu => hbody k u ((hruns k u).mpr hu)) j
    refine (exists_congr (hruns j)).trans (hstarts.1.trans ?_)
    rcases j with _ | _ | _ | j <;> simp [EntersLap]
  exact ⟨hs, ht, g, hg, hfits, hbounds, hbody, p, hspells, m, conduct, rfl, hstarts, hconduct, h,
    (h.leaves 3).mpr ⟨⟨_, rfl⟩, hlaps, by simp⟩⟩

end ScriptLang
