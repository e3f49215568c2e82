import ScriptLang.Proofs.Codegen.Statement
import ScriptLang.Proofs.Evaluation.Steady
import ScriptLang.Proofs.Typing.Agreement

/-!
# Statements keep evaluation and generation in agreement

Each side does with a variable what its own notion of type tells: the declared type
here, the type of the slot there. They differ for a `var` that holds a range, which is
declared `Int`. A statement that leaves those alone leaves both sides in agreement.
-/

namespace ScriptLang

/-- Both sides see the same variables, and agree on each. -/
def Agreement (s : Evaluation) (g : Generator) : Prop :=
  ∀ name, s.environment.find? name ≠ none ∨ g.find? name ≠ none → Agrees s g name

/-- What generation knows of variables. -/
def Generator.typings (g : Generator) : Typings := fun name => (g.find? name).map Slot.typing

variable {s s' : Evaluation} {g g' : Generator}

theorem Generator.knows_typings (g : Generator) : g.Knows g.typings :=
  fun _ _ hk => Option.map_eq_some_iff.mp hk

theorem Agreement.matches (h : Agreement s g) (hs : s.environment.Rooted) :
    s.environment.Matches g.typings := by
  refine ⟨hs, fun name => ?_⟩
  have hn := h name
  rw [Generator.typings]
  cases hb : s.environment.find? name with
  | none =>
    cases hslot : g.find? name with
    | none => exact .none
    | some slot =>
      obtain ⟨b, _, hb', -⟩ := hn (.inr (by simp [hslot]))
      rw [hb] at hb'
      cases hb'
  | some b =>
    obtain ⟨c, slot, hc, hslot, ht, hcons⟩ := hn (.inl (by simp [hb]))
    rw [hb] at hc
    cases hc
    rw [hslot]
    exact .some ⟨ht.symm, hcons⟩

theorem Agreement.of_matches (h : s.environment.Matches g.typings) : Agreement s g := by
  intro name hn
  have hr := h.names name
  rw [Generator.typings] at hr
  cases hb : s.environment.find? name with
  | none =>
    cases hslot : g.find? name with
    | none => exact absurd hn (by simp [hb, hslot])
    | some slot =>
      rw [hb, hslot] at hr
      cases hr
  | some b =>
    cases hslot : g.find? name with
    | none =>
      rw [hb, hslot] at hr
      cases hr
    | some slot =>
      rw [hb, hslot] at hr
      cases hr with
      | some hbk => exact ⟨b, slot, hb, hslot, hbk.1.symm, hbk.2⟩

/-- From states that agree, a statement in a block that fits what is known: if it ends,
code is generated for it, and both sides agree again. It may declare a variable, and
signals may be set. -/
theorem Agreement.of_execute {call : Invocation} {laps : Nat} {b : Stmt}
    (hs : s.environment.Rooted) (hg : g.Rooted) (h : Agreement s g)
    (hb : Stmt.FitAll g.typings [b]) (hx : Eval.execute call laps b s = .ok () s') :
    ∃ g', Gen.statement b g = .ok () g' ∧ Agreement s' g' := by
  have hm := h.matches hs
  rcases Stmt.fitAll_cons hb with ⟨name, constant, type, value, span, t, rfl, hv, -⟩ | ⟨hb, -⟩
  · obtain ⟨g', _, hrun, -, -, hf⟩ := Gen.grows_declaration hg g.knows_typings hv span
    refine ⟨g', hrun, .of_matches ?_⟩
    have hΓ : g'.typings = g.typings.bind name (declaredTyping constant type t) := funext hf
    rw [hΓ]
    exact Eval.matches_declare call laps hm hv hx
  · obtain ⟨_, _, g', hrun, -, hg'⟩ := Gen.stays_statement b hg g.knows_typings hb
    refine ⟨g', hrun, .of_matches ?_⟩
    have hw := Eval.within_of_holding (Eval.holding_execute call laps b hm hb)
    rw [Eval.after_ok hx] at hw
    have hΓ : g'.typings = g.typings := by
      funext name
      rw [Generator.typings, Generator.typings, hg'.find?]
    rw [hΓ]
    exact hm.within hw

/-- A single variable that both sides agree on. -/
theorem Agreement.single {name : String} {b : Binding} {slot : Slot}
    (ht : slot.typing = b.typing) (hc : b.Consistent) :
    Agreement { Evaluation.new with environment := Environment.new.bind name b }
      { Generator.new with globals := NameMap.empty.insert name slot } := by
  intro other hn
  have hb : (Environment.new.bind name b).find? other =
      if other = name then some b else none := Environment.find?_bind (List.cons_ne_nil _ _)
  have hslot := NameMap.find?_insert .empty name other slot
  by_cases ho : other = name
  · rw [if_pos ho] at hb hslot
    exact ⟨b, slot, hb, hslot, ht, hc⟩
  · rw [if_neg ho] at hb hslot
    rcases hn with hn | hn
    · exact absurd hb hn
    · exact absurd hslot hn

/-- A loop in a variable of its own, since the one of its name is a `val`. -/
theorem Agreement.of_execute_val :
    let s : Evaluation := { Evaluation.new with
      environment := Environment.new.bind "r" ⟨.range 1 3, .int, false⟩ }
    let g : Generator := { Generator.new with
      globals := NameMap.empty.insert "r" ⟨.cell "r", .range, false⟩ }
    let b : Stmt := .forLoop "r"
      (.range (.integer 5 default) (.integer 6 default) false false none default)
      (.expression (.unary (.step .postIncrement) (.name "r" default) default)) default
    Agreement s g ∧ ∃ s', Eval.execute (Eval.call 0) 0 b s = .ok () s' ∧
      ∃ g', Gen.statement b g = .ok () g' ∧ Agreement s' g' := by
  intro s g b
  have hs : s.environment.Rooted := List.cons_ne_nil _ _
  have hg : g.Rooted := List.cons_ne_nil _ _
  have h : Agreement s g := .single rfl (.inr ⟨rfl, rfl⟩)
  have hk : g.typings.KeepsType "r" := fun hk =>
    Bool.false_ne_true (congrArg Typing.mutable (Option.some.inj hk))
  have hb : Stmt.FitAll g.typings [b] :=
    ⟨⟨hk, ⟨⟨_, _, .integer⟩, ⟨_, _, .integer⟩, nofun⟩, ⟨_, _, .step (.name rfl)⟩⟩, trivial⟩
  have hx : ∃ s', Eval.execute (Eval.call 0) 0 b s = .ok () s' := ⟨_, rfl⟩
  obtain ⟨s', hx⟩ := hx
  exact ⟨h, s', hx, Agreement.of_execute hs hg h hb hx⟩

/-- A `for` counts in a `var` that holds a range, as its declared type is `Int`. The code
counts in a slot of its own, and goes on to take the variable for a range. -/
theorem Agreement.lost_in_forLoop :
    let s : Evaluation := { Evaluation.new with
      environment := Environment.new.bind "r" ⟨.range 1 3, .int, true⟩ }
    let g : Generator := { Generator.new with
      globals := NameMap.empty.insert "r" ⟨.cell "r", .range, true⟩ }
    let b : Stmt := .forLoop "r"
      (.range (.integer 5 default) (.integer 6 default) false false none default)
      (.block ⟨[], default⟩) default
    Agreement s g ∧ ∃ s' g', Eval.execute (Eval.call 0) 0 b s = .ok () s' ∧
      s'.signals.any = false ∧ Gen.statement b g = .ok () g' ∧ ¬ Agreement s' g' := by
  intro s g b
  have h : Agreement s g := .single rfl (.inr ⟨rfl, rfl⟩)
  have hx : ∃ s', Eval.execute (Eval.call 0) 0 b s = .ok () s' ∧ s'.signals.any = false ∧
      s'.environment.find? "r" = some ⟨.integer 6, .int, true⟩ := ⟨_, rfl, rfl, rfl⟩
  have hy : ∃ g', Gen.statement b g = .ok () g' ∧
      g'.find? "r" = some ⟨.cell "r", .range, true⟩ := ⟨_, rfl, rfl⟩
  obtain ⟨s', hx, hsignals, hb⟩ := hx
  obtain ⟨g', hy, hslot⟩ := hy
  refine ⟨h, s', g', hx, hsignals, hy, fun ha => ?_⟩
  obtain ⟨c, slot, hc, hslot', ht, -⟩ := ha "r" (.inr (by simp [hslot]))
  rw [hb] at hc
  rw [hslot] at hslot'
  cases hc
  cases hslot'
  cases ht

end ScriptLang
