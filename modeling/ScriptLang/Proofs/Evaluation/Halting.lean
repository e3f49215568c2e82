import ScriptLang.Proofs.Evaluation.Reach

/-!
# What is reached is run

A task that halts halts every task that reaches it, for the same reason. No form of
statement or expression goes on behind a part that has halted.
-/

namespace ScriptLang

namespace Eval

/-- The computation halts with `e`. -/
def Halts {α : Type} (x : Eval α) (s : Evaluation) (e : Halt) : Prop := ∃ u, x s = .error e u

namespace Halts

variable {α β : Type} {x : Eval α} {f : α → Eval β} {s t : Evaluation} {e : Halt} {a : α}

theorem bind (h : Halts x s e) : Halts (x >>= f) s e := by
  obtain ⟨u, h⟩ := h
  exact ⟨u, bind_of_error f h⟩

theorem behind (hx : x s = .ok a t) (h : Halts (f a) t e) : Halts (x >>= f) s e := by
  obtain ⟨u, h⟩ := h
  exact ⟨u, (bind_of_ok f hx).trans h⟩

theorem map {g : α → β} (h : Halts x s e) : Halts (g <$> x) s e := by
  obtain ⟨u, h⟩ := h
  exact ⟨u, map_of_error h⟩

theorem of_unit (h : Halts (x >>= fun _ => pure ()) s e) : Halts x s e := by
  obtain ⟨u, h⟩ := h
  cases hx : x s with
  | ok a t =>
    rw [bind_of_ok _ hx] at h
    cases h
  | error e' t =>
    rw [bind_of_error _ hx] at h
    cases h
    exact ⟨_, hx⟩

theorem inScope (h : Halts x s.enterScope e) : Halts (inScope x) s e := by
  obtain ⟨u, h⟩ := h
  exact ⟨u.leaveScope, by rw [Eval.inScope, ← Evaluation.enterScope, h]; rfl⟩

theorem enter {run : List Stmt → Eval Unit} {g : Function} {vs : List Value}
    {position : Position} (hb : bindParameters g.parameters vs position s.enterFrame = .ok () t)
    (h : Halts (run g.body.body) t e) : Halts (enter run g vs position) s e := by
  obtain ⟨u, h⟩ := h
  have hb := (bind_of_ok (fun _ => runFrame s.frameBase (run g.body.body)) hb).trans
    (by rw [runFrame, h])
  have hx : Halts (do
      let callerBase := (← get).frameBase
      modify fun s => { s with frameBase := s.environment.depth - 1 }
      bindParameters g.parameters vs position
      runFrame callerBase (run g.body.body)) s.enterScope e := ⟨_, hb⟩
  exact hx.inScope

end Halts

namespace Task

variable {n laps : Nat} {a : Activity} {t : Task} {s s' : Evaluation}

theorem start_ok (h : start n laps a s = .ok (some t) s') : t = ⟨n, laps, a⟩ ∧ s' = s := by
  cases h
  exact ⟨rfl, rfl⟩

theorem startIf_ok {c : Bool} (h : startIf n laps c a s = .ok (some t) s') :
    c ∧ t = ⟨n, laps, a⟩ ∧ s' = s := by
  cases c with
  | true => exact ⟨rfl, start_ok h⟩
  | false => cases h

theorem proceed_ok (h : proceed n laps a s = .ok (some t) s') :
    ¬ s.signals.any ∧ t = ⟨n, laps, a⟩ ∧ s' = s := by
  obtain ⟨_, _, hg, h⟩ := bind_ok.mp h
  cases hg
  simpa using startIf_ok h

section

variable {n laps : Nat} {s s' : Evaluation} {x : Eval (Option Task)} {t' : Task} {e : Halt}

theorem halts_evaluate {v : Expr} (hx : x ∈ starts ⟨n, laps, .value v⟩)
    (ho : x s = .ok (some t') s') (hh : Halts t'.run s' e) :
    Halts (evaluate (Eval.call n) laps v) s e := by
  cases v with
  | group inner =>
    obtain rfl := List.mem_singleton.mp hx
    obtain ⟨rfl, rfl⟩ := start_ok ho
    exact hh.of_unit
  | binary o l r =>
    simp only [starts, List.mem_cons, List.not_mem_nil, or_false] at hx
    rcases hx with rfl | rfl
    · obtain ⟨rfl, rfl⟩ := start_ok ho
      exact Halts.bind hh.of_unit
    · obtain ⟨a, t, ha, ho⟩ := bind_ok.mp ho
      obtain ⟨rfl, rfl⟩ := start_ok ho
      exact Halts.behind ha (Halts.bind hh.of_unit)
  | unary o v =>
    obtain rfl := List.mem_singleton.mp hx
    obtain ⟨rfl, rfl⟩ := start_ok ho
    cases o <;> exact Halts.bind hh.of_unit
  | call f es =>
    simp only [starts, List.mem_cons, List.not_mem_nil, or_false] at hx
    rcases hx with rfl | rfl
    · obtain ⟨rfl, rfl⟩ := start_ok ho
      exact Halts.bind hh.of_unit
    · obtain ⟨a, t, ha, ho⟩ := bind_ok.mp ho
      obtain ⟨rfl, rfl⟩ := start_ok ho
      exact Halts.behind ha hh.of_unit
  | range a b =>
    simp only [starts, List.mem_cons, List.not_mem_nil, or_false] at hx
    rcases hx with rfl | rfl
    · obtain ⟨rfl, rfl⟩ := start_ok ho
      exact Halts.bind hh.of_unit
    · obtain ⟨a, t, ha, ho⟩ := bind_ok.mp ho
      obtain ⟨b, u, hb, ho⟩ := bind_ok.mp ho
      obtain ⟨rfl, rfl⟩ := start_ok ho
      exact Halts.behind ha (Halts.behind hb (Halts.bind hh.of_unit))
  | run b =>
    obtain ⟨body, _⟩ := b
    obtain rfl := List.mem_singleton.mp hx
    obtain ⟨_, t, hb, ho⟩ := bind_ok.mp ho
    cases hb
    obtain ⟨rfl, rfl⟩ := start_ok ho
    exact Halts.inScope hh.of_unit
  | _ => cases hx

theorem halts_evaluateBlock {body : List Stmt} {last : Value}
    (hx : x ∈ starts ⟨n, laps, .block body last⟩) (ho : x s = .ok (some t') s')
    (hh : Halts t'.run s' e) : Halts (evaluateBlock (Eval.call n) laps body last) s e := by
  cases body with
  | nil => cases hx
  | cons b rest =>
    cases b with
    | expression v =>
      simp only [starts, List.mem_cons, List.not_mem_nil, or_false] at hx
      rcases hx with rfl | rfl
      · obtain ⟨rfl, rfl⟩ := start_ok ho
        exact Halts.bind hh.of_unit
      · obtain ⟨a, t, ha, ho⟩ := bind_ok.mp ho
        obtain ⟨hs, rfl, rfl⟩ := proceed_ok ho
        refine Halts.behind ha (Halts.behind (a := s') rfl ?_)
        rw [if_neg hs]
        exact hh.of_unit
    | _ =>
      simp only [starts, List.mem_cons, List.not_mem_nil, or_false] at hx
      rcases hx with rfl | rfl
      · obtain ⟨rfl, rfl⟩ := start_ok ho
        exact Halts.bind hh
      · obtain ⟨a, t, ha, ho⟩ := bind_ok.mp ho
        obtain ⟨hs, rfl, rfl⟩ := proceed_ok ho
        refine Halts.behind ha (Halts.behind (a := s') rfl ?_)
        rw [if_neg hs]
        exact hh.of_unit

theorem halts_loopRange {position : Position} {v : Expr}
    (hx : x ∈ starts ⟨n, laps, .bounds position v⟩) (ho : x s = .ok (some t') s')
    (hh : Halts t'.run s' e) : Halts (loopRange (Eval.call n) laps position v) s e := by
  cases v with
  | group inner =>
    obtain rfl := List.mem_singleton.mp hx
    obtain ⟨rfl, rfl⟩ := start_ok ho
    exact hh.of_unit
  | range a b f d step =>
    simp only [starts, List.mem_cons, List.not_mem_nil, or_false] at hx
    rcases hx with rfl | rfl | rfl
    · obtain ⟨rfl, rfl⟩ := start_ok ho
      exact Halts.bind hh.of_unit
    · obtain ⟨a, t, ha, ho⟩ := bind_ok.mp ho
      obtain ⟨b, u, hb, ho⟩ := bind_ok.mp ho
      obtain ⟨rfl, rfl⟩ := start_ok ho
      exact Halts.behind ha (Halts.behind hb (Halts.bind hh.of_unit))
    · obtain ⟨a, t, ha, ho⟩ := bind_ok.mp ho
      obtain ⟨b, u, hb, ho⟩ := bind_ok.mp ho
      obtain ⟨c, v, hc, ho⟩ := bind_ok.mp ho
      obtain ⟨d, w, hd, ho⟩ := bind_ok.mp ho
      obtain ⟨rfl, rfl⟩ := start_ok ho
      exact Halts.behind ha (Halts.behind hb (Halts.behind hc (Halts.behind hd
        (Halts.bind hh.of_unit))))
  | _ => cases hx

theorem halts_lap {body : Eval Unit} (h : Halts body { s with signals := s.signals.clearLoop } e) :
    Halts (lap body) s e :=
  Halts.behind (a := ()) rfl (Halts.bind h)

/-- The laps of a `for` run where its counter was put in place. -/
theorem halts_runFor {range : LoopRange} {counter : String} {body : Eval Unit}
    (hu : enterFor range counter s = .ok () s')
    (hh : Halts (forLoop range counter body range.count range.start) s' e) :
    Halts (runFor range counter body) s e := by
  obtain ⟨_, _, hg, hu⟩ := bind_ok.mp hu
  cases hg
  refine Halts.behind (a := s) rfl ?_
  cases hr : reusesCounter s counter with
  | true =>
    rw [hr] at hu
    cases hu
    exact hh
  | false =>
    rw [hr] at hu
    cases hu
    exact Halts.inScope (Halts.behind (a := ()) rfl hh)

theorem halts_execute {b : Stmt} (hx : x ∈ starts ⟨n, laps, .statement b⟩)
    (ho : x s = .ok (some t') s') (hh : Halts t'.run s' e) :
    Halts (execute (Eval.call n) laps b) s e := by
  cases b with
  | block b =>
    obtain ⟨body, _⟩ := b
    obtain rfl := List.mem_singleton.mp hx
    obtain ⟨_, t, hb, ho⟩ := bind_ok.mp ho
    cases hb
    obtain ⟨rfl, rfl⟩ := start_ok ho
    exact Halts.inScope hh
  | branch c a b =>
    simp only [starts, List.mem_cons, List.not_mem_nil, or_false] at hx
    rcases hx with rfl | rfl
    · obtain ⟨rfl, rfl⟩ := start_ok ho
      exact Halts.bind hh.of_unit
    · obtain ⟨v, t, hv, ho⟩ := bind_ok.mp ho
      refine Halts.behind hv ?_
      cases hc : v.isTruthy with
      | true =>
        rw [hc] at ho
        obtain ⟨rfl, rfl⟩ := start_ok ho
        exact hh
      | false =>
        rw [hc] at ho
        obtain ⟨rfl, rfl⟩ := start_ok ho
        exact hh
  | whileLoop c b =>
    obtain rfl := List.mem_singleton.mp hx
    obtain ⟨rfl, rfl⟩ := start_ok ho
    exact hh
  | doWhile b c =>
    obtain rfl := List.mem_singleton.mp hx
    obtain ⟨rfl, rfl⟩ := start_ok ho
    exact hh
  | forLoop counter range b =>
    simp only [starts, List.mem_cons, List.not_mem_nil, or_false] at hx
    rcases hx with rfl | rfl
    · obtain ⟨rfl, rfl⟩ := start_ok ho
      exact Halts.bind hh.of_unit
    · obtain ⟨bounds, t, hb, ho⟩ := bind_ok.mp ho
      obtain ⟨_, u, hu, ho⟩ := bind_ok.mp ho
      obtain ⟨rfl, rfl⟩ := start_ok ho
      exact Halts.behind hb (halts_runFor hu hh)
  | function | «break» | «continue» => cases hx
  | _ =>
    obtain rfl := List.mem_singleton.mp hx
    obtain ⟨rfl, rfl⟩ := start_ok ho
    exact Halts.bind hh.of_unit

theorem halts_whileLoop {c : Expr} {b : Stmt} {fuel : Nat}
    (hx : x ∈ starts ⟨n, laps, .whileLaps c b fuel⟩) (ho : x s = .ok (some t') s')
    (hh : Halts t'.run s' e) :
    Halts (whileLoop (Value.isTruthy <$> evaluate (Eval.call n) laps c)
      (execute (Eval.call n) laps b) fuel) s e := by
  cases fuel with
  | zero => cases hx
  | succ fuel =>
    simp only [starts, List.mem_cons, List.not_mem_nil, or_false] at hx
    rcases hx with rfl | rfl | rfl
    · obtain ⟨rfl, rfl⟩ := start_ok ho
      exact Halts.bind (Halts.map hh.of_unit)
    · obtain ⟨v, t, hv, ho⟩ := bind_ok.mp ho
      refine Halts.behind (map_of_ok hv) ?_
      cases hc : v.isTruthy with
      | true =>
        rw [hc] at ho
        obtain ⟨_, u, hu, ho⟩ := bind_ok.mp ho
        cases hu
        obtain ⟨rfl, rfl⟩ := start_ok ho
        exact Halts.bind (halts_lap hh)
      | false =>
        rw [hc] at ho
        cases ho
    · obtain ⟨v, t, hv, ho⟩ := bind_ok.mp ho
      refine Halts.behind (map_of_ok hv) ?_
      cases hc : v.isTruthy with
      | true =>
        rw [hc] at ho
        obtain ⟨again, u, hu, ho⟩ := bind_ok.mp ho
        obtain ⟨rfl, rfl, rfl⟩ := startIf_ok ho
        exact Halts.behind hu hh
      | false =>
        rw [hc] at ho
        cases ho

theorem halts_doWhile {c : Expr} {b : Stmt} {fuel : Nat}
    (hx : x ∈ starts ⟨n, laps, .doLaps b c fuel⟩) (ho : x s = .ok (some t') s')
    (hh : Halts t'.run s' e) :
    Halts (doWhile (execute (Eval.call n) laps b)
      (Value.isTruthy <$> evaluate (Eval.call n) laps c) fuel) s e := by
  cases fuel with
  | zero => cases hx
  | succ fuel =>
    simp only [starts, List.mem_cons, List.not_mem_nil, or_false] at hx
    rcases hx with rfl | rfl | rfl
    · obtain ⟨_, u, hu, ho⟩ := bind_ok.mp ho
      cases hu
      obtain ⟨rfl, rfl⟩ := start_ok ho
      exact Halts.bind (halts_lap hh)
    · obtain ⟨again, t, ha, ho⟩ := bind_ok.mp ho
      obtain ⟨rfl, rfl, rfl⟩ := startIf_ok ho
      exact Halts.behind ha (Halts.bind (Halts.map hh.of_unit))
    · obtain ⟨again, t, ha, ho⟩ := bind_ok.mp ho
      refine Halts.behind ha ?_
      cases again with
      | true =>
        obtain ⟨v, u, hv, ho⟩ := bind_ok.mp ho
        obtain ⟨hc, rfl, rfl⟩ := startIf_ok ho
        refine Halts.behind (map_of_ok hv) ?_
        rwa [if_pos hc]
      | false => cases ho

theorem halts_forLoop {range : LoopRange} {counter : String} {b : Stmt} {count : Nat} {m : Int64}
    (hx : x ∈ starts ⟨n, laps, .forLaps range counter b count m⟩) (ho : x s = .ok (some t') s')
    (hh : Halts t'.run s' e) :
    Halts (forLoop range counter (execute (Eval.call n) laps b) count m) s e := by
  cases count with
  | zero => cases hx
  | succ count =>
    simp only [starts, List.mem_cons, List.not_mem_nil, or_false] at hx
    rcases hx with rfl | rfl
    · obtain ⟨_, t, ht, ho⟩ := bind_ok.mp ho
      obtain ⟨_, u, hu, ho⟩ := bind_ok.mp ho
      cases hu
      obtain ⟨rfl, rfl⟩ := start_ok ho
      exact Halts.behind ht (Halts.bind (halts_lap hh))
    · obtain ⟨_, t, ht, ho⟩ := bind_ok.mp ho
      obtain ⟨again, u, ha, ho⟩ := bind_ok.mp ho
      obtain ⟨rfl, rfl, rfl⟩ := startIf_ok ho
      exact Halts.behind ht (Halts.behind ha hh)

theorem halts_call {name : String} {vs : List Value} {position : Position}
    (hx : x ∈ starts ⟨n, laps, .call name vs position⟩) (ho : x s = .ok (some t') s')
    (hh : Halts t'.run s' e) : Halts (Eval.call n name vs position) s e := by
  cases n with
  | zero => cases hx
  | succ n =>
    obtain rfl := List.mem_singleton.mp hx
    obtain ⟨_, _, hg, ho⟩ := bind_ok.mp ho
    cases hg
    refine Halts.behind (a := s) rfl ?_
    cases hf : s.functions.find? name with
    | none =>
      rw [hf] at ho
      cases ho
    | some f =>
      rw [hf] at ho
      by_cases hl : f.parameters.length = vs.length
      · simp only [hl, if_true] at ho ⊢
        obtain ⟨_, t, ht, ho⟩ := bind_ok.mp ho
        cases ht
        obtain ⟨_, u, hu, ho⟩ := bind_ok.mp ho
        obtain ⟨rfl, rfl⟩ := start_ok ho
        exact Halts.bind (Halts.enter hu hh)
      · simp only [hl, if_false] at ho
        cases ho

end

/-- A task that a task starts is part of it: where the one halts, so does the other. -/
theorem halts_of_starts {t : Task} {x : Eval (Option Task)} (hx : x ∈ t.starts)
    {t' : Task} {e : Halt} (ho : x s = .ok (some t') s') (hh : Halts t'.run s' e) :
    Halts t.run s e := by
  obtain ⟨n, laps, a⟩ := t
  cases a with
  | value v => exact Halts.bind (halts_evaluate hx ho hh)
  | values es =>
    cases es with
    | nil => cases hx
    | cons v vs =>
      refine Halts.bind ?_
      simp only [starts, List.mem_cons, List.not_mem_nil, or_false] at hx
      rcases hx with rfl | rfl
      · obtain ⟨rfl, rfl⟩ := start_ok ho
        exact Halts.bind hh.of_unit
      · obtain ⟨a, t, ha, ho⟩ := bind_ok.mp ho
        obtain ⟨rfl, rfl⟩ := start_ok ho
        exact Halts.behind ha (Halts.bind hh.of_unit)
  | option v =>
    cases v with
    | none => cases hx
    | some v =>
      obtain rfl := List.mem_singleton.mp hx
      obtain ⟨rfl, rfl⟩ := start_ok ho
      exact Halts.bind (Halts.bind hh.of_unit)
  | block body last => exact Halts.bind (halts_evaluateBlock hx ho hh)
  | bounds position v => exact Halts.bind (halts_loopRange hx ho hh)
  | step v =>
    cases v with
    | none => cases hx
    | some v =>
      obtain rfl := List.mem_singleton.mp hx
      obtain ⟨rfl, rfl⟩ := start_ok ho
      exact Halts.bind (Halts.bind hh.of_unit)
  | statement b => exact halts_execute hx ho hh
  | alternative b =>
    cases b with
    | none => cases hx
    | some b =>
      obtain rfl := List.mem_singleton.mp hx
      obtain ⟨rfl, rfl⟩ := start_ok ho
      exact hh
  | body body =>
    cases body with
    | nil => cases hx
    | cons b rest =>
      simp only [starts, List.mem_cons, List.not_mem_nil, or_false] at hx
      rcases hx with rfl | rfl
      · obtain ⟨rfl, rfl⟩ := start_ok ho
        exact Halts.bind hh
      · obtain ⟨_, t, hb, ho⟩ := bind_ok.mp ho
        obtain ⟨hs, rfl, rfl⟩ := proceed_ok ho
        refine Halts.behind hb (Halts.behind (a := s') rfl ?_)
        rwa [if_neg hs]
  | whileLaps c body fuel => exact halts_whileLoop hx ho hh
  | doLaps body c fuel => exact halts_doWhile hx ho hh
  | forLaps range counter body count m => exact halts_forLoop hx ho hh
  | call name vs position => exact Halts.bind (halts_call hx ho hh)

end Task

theorem Reaches.halts {t t' : Task} {s s' : Evaluation} {e : Halt} (h : Reaches t s t' s')
    (hh : Halts t'.run s' e) : Halts t.run s e := by
  induction h with
  | self => exact hh
  | start _ hx ho ih => exact ih (Task.halts_of_starts hx ho hh)

end Eval

end ScriptLang
