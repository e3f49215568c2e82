import ScriptLang.Proofs.Evaluation.Parallel
import ScriptLang.Proofs.Registration

/-!
# What a run shows

A run shows its output, its diagnostics and how it ended, all without positions. Programs
that differ in spans and parentheses only show the same, and so do programs whose functions
stand in another order, if no two of them share a name.
-/

namespace ScriptLang

/-- How a run ended. -/
inductive Ending where
  | finished
  | failed (cause : Cause)
  | outOfFuel
  deriving DecidableEq

structure Transcript where
  output : String
  diagnostics : List Cause
  ending : Ending
  deriving DecidableEq

def Halt.ending : Halt → Ending
  | .fault f => .failed f.cause
  | .outOfFuel => .outOfFuel

/-- The end of an evaluation, as it shows. -/
def transcript {α : Type} : EStateM.Result Halt Evaluation α → Transcript
  | .ok _ s => ⟨s.output, s.diagnostics.map (·.cause), .finished⟩
  | .error h s => ⟨s.output, s.diagnostics.map (·.cause), h.ending⟩

/-- What a run of a program shows. -/
def Program.transcript (fuel : Nat) (p : Program) : Transcript :=
  ScriptLang.transcript (p.run fuel)

theorem Halt.ending_eq_of_cause? : ∀ {h k : Halt}, h.cause? = k.cause? → h.ending = k.ending
  | .fault _, .fault _, h => congrArg Ending.failed (Option.some.inj h)
  | .outOfFuel, .outOfFuel, _ => rfl
  | .fault _, .outOfFuel, h | .outOfFuel, .fault _, h => by cases h

namespace Eval

open Evaluation (Alike)

variable {α : Type} {fs fs' : List Function} {s : Evaluation}

theorem Matches.transcript {x y : Eval α} (h : Matches x y) {t : Evaluation} (hst : s.Alike t) :
    ScriptLang.transcript (x s) = ScriptLang.transcript (y t) := by
  have h := h s t hst
  revert h
  generalize x s = u
  generalize y t = v
  rintro (⟨-, h⟩ | ⟨he, h⟩)
  · rw [ScriptLang.transcript, ScriptLang.transcript, h.output, h.diagnostics]
  · rw [ScriptLang.transcript, ScriptLang.transcript, h.output, h.diagnostics,
      Halt.ending_eq_of_cause? he]

/-! ## Registration -/

theorem matches_register {f f' : Function} (h : f.core = f'.core) :
    Matches (register f) (register f') := by
  have hname : f.core.name = f'.core.name := congrArg Function.name h
  rw [Function.core, Function.core] at hname
  have hinsert : Matches
      (modify fun s => { s with functions := s.functions.insert f.name f })
      (modify fun s => { s with functions := s.functions.insert f'.name f' }) :=
    .modify fun _ _ hst => hst.insert h
  refine .get_bind fun s t hst => ?_
  rw [hst.contains, hname] at *
  exact .branch _ ((Matches.report _ _ _).bind fun _ => hinsert) hinsert

theorem matches_registerAll : ∀ {fs fs' : List Function},
    fs.map Function.core = fs'.map Function.core → Matches (registerAll fs) (registerAll fs')
  | [], [], _ => .pure _
  | f :: fs, f' :: fs', h => by
    obtain ⟨hf, hfs⟩ := List.cons_eq_cons.mp h
    exact (matches_register hf).bind fun _ => matches_registerAll hfs

/-- Functions by their names. -/
def named (fs : List Function) : List (String × Function) := fs.map fun f => (f.name, f)

theorem map_fst_named (fs : List Function) : (named fs).map (·.1) = fs.map (·.name) :=
  List.map_map

/-- Functions with names of their own are made known without a report. -/
theorem registerAll_named : ∀ {fs : List Function} {s : Evaluation},
    (fs.map (·.name)).Nodup → (∀ f ∈ fs, s.functions.find? f.name = none) →
    registerAll fs s = .ok () { s with functions := s.functions.insertAll (named fs) }
  | [], _, _, _ => rfl
  | g :: fs, s, hn, hs => by
    obtain ⟨hg, hn⟩ := List.nodup_cons.mp hn
    obtain ⟨hnew, hs⟩ := List.forall_mem_cons.mp hs
    have hregister : register g s =
        .ok () { s with functions := s.functions.insert g.name g } := by
      have hc : s.functions.contains g.name = false := by rw [NameMap.contains, hnew]; rfl
      change (if s.functions.contains g.name = true then _ else _ : Eval Unit) s = _
      rw [hc]
      rfl
    refine (bind_of_ok (fun _ => registerAll fs) hregister).trans ?_
    refine registerAll_named hn fun f hf => ?_
    rw [NameMap.find?_insert, if_neg fun he => hg (List.mem_map.mpr ⟨f, hf, he⟩)]
    exact hs f hf

/-- The order in which functions with names of their own become known does not matter. -/
theorem alike_named (hn : (fs.map (·.name)).Nodup) (hn' : (fs'.map (·.name)).Nodup)
    (hp : (fs.map Function.core).Perm (fs'.map Function.core)) :
    Alike { Evaluation.new with functions := NameMap.empty.insertAll (named fs) }
      { Evaluation.new with functions := NameMap.empty.insertAll (named fs') } := by
  refine { Alike.refl Evaluation.new with functions := fun name => ?_ }
  refine NameMap.find?_insertAll_perm Function.core ?_ ?_ ?_ name
  · rwa [map_fst_named]
  · rwa [map_fst_named]
  · have hcores := hp.map fun f => (f.name, f)
    rw [List.map_map, List.map_map] at hcores
    rwa [named, named, List.map_map, List.map_map]

/-! ## Programs -/

theorem matches_runTopLevel (fuel : Nat) (body : List Stmt) :
    Matches (runTopLevel fuel body) (runTopLevel fuel (body.map Stmt.core)) := by
  induction body with
  | nil => exact .pure _
  | cons s rest ih =>
    exact (execute_core (matches_call fuel) fuel s).bind fun _ =>
      Matches.bind (.modify fun _ _ h => { h with signals := rfl, returned := rfl }) fun _ => ih

/-- The rest of a run, once the functions are known. -/
def runRegistered (fuel : Nat) (p : Program) : Eval Unit := do
  runTopLevel fuel p.topLevel
  if (← get).functions.contains "main" then
    let _ ← call fuel "main" [] p.span.start
  else
    fail .missingMain p.span.start

theorem matches_runRegistered (fuel : Nat) {p q : Program}
    (h : p.topLevel.map Stmt.core = q.topLevel.map Stmt.core) :
    Matches (runRegistered fuel p) (runRegistered fuel q) := by
  have htop := (matches_runTopLevel fuel p.topLevel).trans
    (h ▸ (matches_runTopLevel fuel q.topLevel).symm)
  refine htop.bind fun _ => .get_bind fun s t hst => ?_
  rw [hst.contains]
  exact .branch _ ((matches_call fuel _ _ _ _).bind fun _ => .pure _) (.fail _ _ _)

end Eval

namespace Program

variable {p q : Program}

/-- Spans and parentheses do not show in a run. -/
theorem transcript_eq_of_core_eq (h : p.core = q.core) (fuel : Nat) :
    p.transcript fuel = q.transcript fuel := by
  have hfunctions : p.functions.map Function.core = q.functions.map Function.core := by
    rw [← functions_core, ← functions_core, h]
  have htop : p.topLevel.map Stmt.core = q.topLevel.map Stmt.core := by
    rw [← topLevel_core, ← topLevel_core, h]
  exact ((Eval.matches_registerAll hfunctions).bind fun _ =>
    Eval.matches_runRegistered fuel htop).transcript (.refl _)

/-- The order of functions with names of their own does not show in a run. -/
theorem transcript_eq_of_perm (hn : (p.functions.map (·.name)).Nodup)
    (hp : (p.functions.map Function.core).Perm (q.functions.map Function.core))
    (h : p.topLevel.map Stmt.core = q.topLevel.map Stmt.core) (fuel : Nat) :
    p.transcript fuel = q.transcript fuel := by
  have hnames : ∀ fs : List Function,
      (fs.map Function.core).map (·.name) = fs.map (·.name) := fun fs => by
    rw [List.map_map]
    rfl
  have hn' : (q.functions.map (·.name)).Nodup := by
    rw [← hnames] at hn ⊢
    exact (hp.map _).nodup_iff.mp hn
  have hrun : ∀ {r : Program}, (r.functions.map (·.name)).Nodup → r.run fuel =
      Eval.runRegistered fuel r
        { Evaluation.new with
          functions := NameMap.empty.insertAll (Eval.named r.functions) } := fun hr =>
    bind_of_ok _ (Eval.registerAll_named hr fun _ _ => rfl)
  rw [transcript, transcript, hrun hn, hrun hn']
  exact (Eval.matches_runRegistered fuel h).transcript (Eval.alike_named hn hn' hp)

end Program

end ScriptLang
