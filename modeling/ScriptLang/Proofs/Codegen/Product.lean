import ScriptLang.Proofs.Codegen.Parallel.Program

/-!
# What compiling shows

Compiling shows a listing and the causes of its diagnostics, or why there is no listing.
Two generations that start even stay even, so programs that differ in spans and parentheses
only show the same.
-/

namespace ScriptLang

open Assembly

namespace Generator

/-- The same constants, numbers and problems so far. No constant is in its pool twice. -/
structure Even (g h : Generator) : Prop where
  strings : g.strings = h.strings
  floats : g.floats = h.floats
  labels : g.labels = h.labels
  causes : g.diagnostics.map (·.cause) = h.diagnostics.map (·.cause)
  nodupStrings : g.strings.toList.Nodup
  nodupFloats : g.floats.toList.Nodup

theorem Even.refl_new : Even .new .new :=
  ⟨rfl, rfl, rfl, rfl, List.nodup_nil, List.nodup_nil⟩

theorem Alike.even {o : Outset} {G : String → Option Slot} {g h : Generator} (hgh : Alike o G g h)
    (ho : Even o.first o.second) : Even g h := by
  obtain ⟨ss, hg, hh⟩ := hgh.strings
  obtain ⟨bs, hg', hh'⟩ := hgh.floats
  obtain ⟨k, hgk, hhk⟩ := hgh.labels
  obtain ⟨cs, hgc, hhc⟩ := hgh.diagnostics
  exact {
    strings := by rw [hg, hh, ho.strings]
    floats := by rw [hg', hh', ho.floats]
    labels := by rw [hgk, hhk, ho.labels]
    causes := by rw [hgc, hhc, ho.causes]
    nodupStrings := hg ▸ nodup_internedAll ho.nodupStrings
    nodupFloats := hg' ▸ nodup_internedAll ho.nodupFloats }

theorem getElem?_inj_of_nodup {α : Type} {pool : Array α} (h : pool.toList.Nodup) {i j : Nat}
    {a : α} (hi : pool[i]? = some a) (hj : pool[j]? = some a) : i = j := by
  rw [← Array.getElem?_toList] at hi hj
  obtain ⟨hlt, -⟩ := List.getElem?_eq_some_iff.mp hi
  exact (List.getElem?_inj hlt h).mp (hi.trans hj.symm)

/-- From even starts, numbers that are given out at the same distance are the same. -/
theorem Even.eq_of_marks {o : Outset} (ho : Even o.first o.second) {l l' : Label}
    (hl : o.Marks l l') : l = l' := by
  obtain ⟨mark, k, rfl, rfl⟩ := hl
  rw [ho.labels]

/-- Where both sides are even, labels of the same constant are the same. -/
theorem Even.eq_of_sameConstant {g h : Generator} (hgh : Even g h) {l l' : Label}
    (hl : SameConstant g h l l') : l = l' := by
  cases hl with
  | string hi hj =>
    rw [← hgh.strings] at hj
    rw [getElem?_inj_of_nodup hgh.nodupStrings hi hj]
  | float hi hj =>
    rw [← hgh.floats] at hj
    rw [getElem?_inj_of_nodup hgh.nodupFloats hi hj]

end Generator

namespace Gen

open Generator (Outset Alike Even SameConstant)

variable {G : String → Option Slot} {ts : List TopLevelStmt}

/-- Nothing of the top level is left open behind a function. -/
theorem outside_function {f : Function} {g g' : Generator} {r : Routine}
    (hg : g.topLevelExit = none) (h : function ts f g = .ok r g') : g'.topLevelExit = none := by
  have hcells : ∀ t ∈ ts, ∀ cell ∈ t.cell, cell ∈ cellsOf ts := fun t ht cell hc =>
    List.mem_filterMap.mpr ⟨t, ht, hc⟩
  obtain ⟨t, -, hm, rfl⟩ := made_function hcells hg h
  exact (hm.before (List.cons_ne_nil _ _)).topLevelExit.trans hg

/-- Behind a function names mean the same on both sides once more. -/
theorem abreast_function (hts : TopLevelStmt.rebindAll G ts = G) (f : Function) {g h : Generator}
    (hgh : Abreast G g h) :
    EndAlike (fun r r' g' h' => RoutineAgrees (Outset.Marks ⟨g, h⟩) (SameConstant g' h') r r' ∧
        Alike ⟨g, h⟩ G g' h' ∧ Abreast G g' h') NoRange
      (function ts f g) (function (ts.map TopLevelStmt.core) f.core h) :=
  (function_core hts hgh f).conclude fun _ _ _ _ hg hh hr =>
    ⟨hr.1, hr.2, hr.2.signatures, hr.2.globals, outside_function hgh.outside.1 hg,
      outside_function hgh.outside.2 hh⟩

/-- Where both sides are even, functions come out the same. -/
theorem functions_core (hts : TopLevelStmt.rebindAll G ts = G) : ∀ fs : List Function,
    Corresponds (fun g h => Abreast G g h ∧ Even g h)
      (fun rs rs' g h => rs = rs' ∧ Abreast G g h ∧ Even g h) NoRange
      (functions ts fs) (functions (ts.map TopLevelStmt.core) (fs.map Function.core))
  | [] => .pure fun _ _ h => ⟨rfl, h⟩
  | f :: fs => by
    have hfunction : Corresponds (fun g h => Abreast G g h ∧ Even g h)
        (fun r r' g h => r = r' ∧ Abreast G g h ∧ Even g h) NoRange
        (function ts f) (function (ts.map TopLevelStmt.core) f.core) := by
      intro g h ⟨hgh, heven⟩
      refine (abreast_function hts f hgh).conclude fun r r' g' h' _ _ ⟨hr, halike, hab⟩ => ?_
      have heven' := halike.even heven
      exact ⟨hr.eq (fun _ _ => heven.eq_of_marks)
        fun _ _ => heven'.eq_of_sameConstant, hab, heven'⟩
    refine hfunction.bind fun r r' s t ⟨hr, hst⟩ => ?_
    subst hr
    exact ((functions_core hts fs).bind fun rs rs' => .pure fun _ _ ⟨hrs, h⟩ =>
      ⟨congrArg (r :: ·) hrs, h⟩) s t hst

theorem lastOfName_core (fs : List Function) :
    lastOfName (fs.map Function.core) = (lastOfName fs).map Function.core := by
  induction fs with
  | nil => rfl
  | cons f fs ih =>
    have hany : ((fs.map Function.core).any fun g => g.name = f.core.name) =
        fs.any fun g => g.name = f.name := by
      rw [List.any_map]
      rfl
    rw [List.map_cons, lastOfName, lastOfName, hany, ih]
    split <;> rfl

/-- Both computations fail for the same reason. -/
def SameCause (f f' : Fault) (_ _ : Generator) : Prop := f.cause = f'.cause

theorem NoRange.sameCause {f f' : Fault} {g h : Generator} (he : NoRange f f' g h) :
    SameCause f f' g h := he.1.trans he.2.symm

/-- The rest of a registration, once the functions are known. -/
def registerRest (p : Program) : Gen (List TopLevelStmt) := do
  let topLevel ← registerCells [] p.topLevel
  internFloats (1 :: bodyFloats p.body)
  return topLevel

theorem registerRest_core (p : Program) :
    Corresponds (Alike ⟨.new, .new⟩ fun _ => none) (fun ts ts' g h =>
        ts' = ts.map TopLevelStmt.core ∧
          Alike ⟨.new, .new⟩ (TopLevelStmt.rebindAll (fun _ => none) ts) g h) NoRange
      (registerRest p) (registerRest p.core) := by
  have hfloats : bodyFloats p.core.body = bodyFloats p.body := bodyFloats_coreList p.body
  unfold registerRest
  rw [Program.topLevel_core, hfloats]
  refine (registerCells_core p.topLevel []).bind fun ts ts' s t ⟨hts, hst⟩ => ?_
  exact Corresponds.bind (matches_internFloats (1 :: bodyFloats p.body))
    (fun _ _ => .pure fun _ _ h => ⟨hts, h.2⟩) s t hst

/-- A program and its core are registered alike. -/
theorem register_core (p : Program) :
    Corresponds (Alike ⟨.new, .new⟩ fun _ => none) (fun ts ts' g h =>
        ts' = ts.map TopLevelStmt.core ∧
          Alike ⟨.new, .new⟩ (TopLevelStmt.rebindAll (fun _ => none) ts) g h) SameCause
      (register p) (register p.core) := by
  have hfunctions := registerFunctions_core (o := ⟨.new, .new⟩) (G := fun _ => none) p.functions
  rw [← Program.functions_core] at hfunctions
  refine Corresponds.bind (hfunctions.weakenError fun _ _ _ _ => NoRange.sameCause) fun _ _ => ?_
  refine Corresponds.get_bind fun g h hgh => ?_
  rw [hgh.2.contains]
  have hrest := (registerRest_core p).weakenError fun _ _ _ _ => NoRange.sameCause
  refine Corresponds.ite (p := Alike ⟨.new, .new⟩ fun _ => none) Iff.rfl
    (fun _ => hrest) (fun _ => ?_) g h hgh.2
  exact Corresponds.bind (q := fun _ _ _ _ => False) (.throw fun _ _ _ => rfl)
    fun _ _ _ _ h => h.elim

theorem alike_new : Alike ⟨.new, .new⟩ (fun _ => none) .new .new where
  signatures _ := rfl
  globals := ⟨rfl, rfl⟩
  frame := rfl
  code := .nil
  strings := ⟨[], rfl, rfl⟩
  floats := ⟨[], rfl, rfl⟩
  labels := ⟨0, rfl, rfl⟩
  loops := .nil
  current := rfl
  topLevelExit := .none
  diagnostics := ⟨[], rfl, rfl⟩

/-- A program and its core are generated alike. -/
theorem program_core (p : Program) :
    EndAlike (fun l l' g h => l = l' ∧ Even g h) SameCause (program p .new)
      (program p.core .new) := by
  have hregister : Corresponds (fun g h => g = .new ∧ h = .new) (fun ts ts' g h =>
      ts' = ts.map TopLevelStmt.core ∧
        Abreast (TopLevelStmt.rebindAll (fun _ => none) ts) g h ∧ Even g h) SameCause
      (register p) (register p.core) := by
    rintro _ _ ⟨rfl, rfl⟩
    refine (register_core p _ _ alike_new).conclude fun ts ts' g h hg hh ⟨hts, hgh⟩ => ?_
    exact ⟨hts, ⟨hgh.signatures, hgh.globals, (registered_register hg).topLevelExit,
      (registered_register hh).topLevelExit⟩, hgh.even .refl_new⟩
  refine hregister.bind (fun ts ts' s t ⟨hts, hst⟩ => ?_) _ _ ⟨rfl, rfl⟩
  subst hts
  have hts := TopLevelStmt.rebindAll_rebindAll (fun _ => none) ts
  have hfunctions := (functions_core hts (lastOfName p.functions)).weakenError
    fun _ _ _ _ => NoRange.sameCause
  rw [Program.functions_core, lastOfName_core]
  refine hfunctions.bind (fun rs rs' => ?_) s t hst
  refine Corresponds.get_bind fun g h ⟨hrs, _, heven⟩ => .ok ⟨?_, heven⟩
  rw [hrs, heven.strings, heven.floats, List.filterMap_map]
  rfl

end Gen

/-- What compiling a program shows. -/
def Program.product (p : Program) : Except Cause (Listing × List Cause) :=
  match p.compile with
  | .ok c => .ok (c.listing, c.diagnostics.map (·.cause))
  | .error f => .error f.cause

theorem Program.product_core (p : Program) : p.core.product = p.product := by
  have h := Gen.program_core p
  unfold product compile
  revert h
  generalize Gen.program p .new = x
  generalize Gen.program p.core .new = y
  rintro (⟨rfl, h⟩ | h)
  · exact congrArg (fun cs => Except.ok (_, cs)) h.causes.symm
  · exact congrArg Except.error h.symm

/-- Spans and parentheses do not show in what is compiled. -/
theorem Program.product_eq_of_core_eq {p q : Program} (h : p.core = q.core) :
    p.product = q.product := by
  rw [← p.product_core, h, q.product_core]

end ScriptLang
