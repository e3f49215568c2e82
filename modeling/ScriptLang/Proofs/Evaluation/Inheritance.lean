import ScriptLang.Proofs.Evaluation.Invariant

/-!
# What is run is part of the program

Evaluation follows the tree, and calls run the bodies of functions that the program
declares. So what holds throughout a program holds of every expression and statement
that its runs ever reach.
-/

namespace ScriptLang

variable {p : NodeProperty}

/-- The functions that are known keep a property. -/
def inheritance (p : NodeProperty) : Contract where
  onExpr s t := s.Holds p → t.Holds p
  onStmt s t := s.Holds p → t.Holds p

namespace Eval

theorem composes_inheritance : Composes (inheritance p).onStmt :=
  ⟨fun _ => id, fun h h' hs => h' (h hs)⟩

/-- Nothing that is done to run a program makes a function known. -/
theorem lawful_inheritance : (inheritance p).Lawful where
  expr := composes_inheritance
  stmt := composes_inheritance
  weaken := id
  report := fun _ _ => id
  emit := fun _ _ => id
  signal := fun _ _ _ => id
  store := fun _ _ _ _ _ => id
  declare := fun _ _ _ _ _ => id
  scope := id
  frame := id

theorem governs_inheritance : (inheritance p).Governs p :=
  governs_of_known lawful_inheritance fun h hs => h hs hs

theorem preserved_inheritance :
    Preserved (inheritance p) p (Evaluation.Holds p) fun _ _ => True where
  governs := governs_inheritance
  holds := fun _ hs => hs
  stmt := fun h hs => h hs
  scope := fun _ hs => hs
  frame := fun _ hs => hs
  enterFor := fun range counter s hs => by
    rw [after_enterFor]
    split
    · exact ⟨hs, trivial⟩
    · exact ⟨hs, trivial⟩
  setCounter := fun counter n s hs _ =>
    ⟨keeps_setCounter lawful_inheritance counter n s hs, trivial⟩
  signal := fun _ _ _ _ _ => trivial
  body := fun _ _ _ _ _ _ _ _ _ _ _ => trivial

/-- Registering functions makes no others known, and does not fail. -/
theorem registerAll_ok {fs : List Function} (hf : ∀ f ∈ fs, p.InStmts f.body.body)
    {s : Evaluation} (hs : s.Holds p) : ∃ t, registerAll fs s = .ok () t ∧ t.Holds p := by
  induction fs generalizing s with
  | nil => exact ⟨s, rfl, hs⟩
  | cons f fs ih =>
    obtain ⟨u, hu, hup⟩ : ∃ u, register f s = .ok () u ∧ u.Holds p := by
      have hinsert : ∀ name g, (s.functions.insert f.name f).find? name = some g →
          p.InStmts g.body.body := by
        intro name g hg
        rw [NameMap.find?_insert] at hg
        split at hg
        · cases hg
          exact hf f List.mem_cons_self
        · exact hs name g hg
      rw [register, get_bind]
      split
      · exact ⟨_, rfl, hinsert⟩
      · exact ⟨_, rfl, hinsert⟩
    obtain ⟨t, ht, htp⟩ := ih (fun g hg => hf g (List.mem_cons_of_mem _ hg)) hup
    exact ⟨t, by rw [registerAll, bind_of_ok _ hu, ht], htp⟩

theorem inherits_runTopLevel (fuel : Nat) {body : List Stmt} (hb : p.InStmts body) :
    Keeps (inheritance p).onStmt (runTopLevel fuel body) := by
  induction body with
  | nil => exact fun _ => id
  | cons b rest ih =>
    exact Keeps.bind composes_inheritance (preserved_inheritance.keeps_execute fuel fuel hb.1)
      fun _ => Keeps.bind composes_inheritance (Keeps.modified fun _ => id) fun _ => ih hb.2

end Eval

theorem Evaluation.holds_new : Evaluation.new.Holds p := by
  intro name f hf
  cases hf

/-- What holds throughout a program holds of all that its runs ever reach. -/
theorem Program.fits_of_reaches {program : Program} (h : p.InProgram program) {fuel : Nat}
    {t t' : Eval.Task} {s s' : Evaluation} (hs : program.Starts fuel t s)
    (hr : Eval.Reaches t s t' s') : t'.activity.Fits p (fun _ _ => True) s' := by
  obtain ⟨u, hu, hup⟩ := Eval.registerAll_ok (fun _ => NodeProperty.inStmts_of_functions h)
    (Evaluation.holds_new (p := p))
  have htop := NodeProperty.inStmts_topLevel h
  have hbefore : ∀ {body}, p.InStmts body →
      (do Eval.registerAll program.functions; Eval.runTopLevel fuel body) .new = .ok () s →
      s.Holds p := by
    intro body hb hrun
    rw [bind_of_ok _ hu] at hrun
    have hk := Eval.inherits_runTopLevel fuel hb u hup
    rwa [Eval.after_ok hrun] at hk
  suffices hst : s.Holds p ∧ t.activity.Fits p (fun _ _ => True) s from
    (hr.preserved Eval.preserved_inheritance hst.1 hst.2).2
  cases hs with
  | topLevel hsplit hrun =>
    rw [hsplit, NodeProperty.inStmts_iff] at htop
    have hb := NodeProperty.inStmts_iff.mpr fun b hb => htop b (List.mem_append_left _ hb)
    exact ⟨hbefore hb hrun, htop _ (List.mem_append_right _ List.mem_cons_self)⟩
  | main hrun => exact ⟨hbefore htop hrun, trivial⟩

end ScriptLang
