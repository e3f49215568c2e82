import ScriptLang.Proofs.Codegen.Labels
import ScriptLang.Proofs.Codegen.Product

/-!
# Functions piece by piece

A piece is a function with the states it was generated between and what came of it. In a
listing the pieces follow one another: the numbers of their labels do not overlap, and what
a pool holds at the end was there at the start or was put in by a piece.
-/

namespace ScriptLang

open Assembly

namespace Generator

/-- Numbers were given out, and constants put in the pools. -/
structure Grows (g g' : Generator) : Prop where
  labels : g.labels ≤ g'.labels
  strings : g.strings.toList <+: g'.strings.toList
  floats : g.floats.toList <+: g'.floats.toList

theorem Grows.refl (g : Generator) : g.Grows g :=
  ⟨Nat.le_refl _, List.prefix_rfl, List.prefix_rfl⟩

theorem Grows.trans {g g' g'' : Generator} (h : g.Grows g') (h' : g'.Grows g'') : g.Grows g'' :=
  ⟨Nat.le_trans h.labels h'.labels, h.strings.trans h'.strings, h.floats.trans h'.floats⟩

end Generator

namespace Gen

open Generator (Outset Alike SameConstant)

variable {G : String → Option Slot} {signatures : NameMap Signature} {ts : List TopLevelStmt}

structure Piece where
  function : Function
  before : Generator
  after : Generator
  routine : Routine

/-- Between functions, with these functions known and these meanings of global names. -/
structure Standing (G : String → Option Slot) (signatures : NameMap Signature) (g : Generator) :
    Prop where
  signatures : g.signatures = signatures
  globals : g.globals.find? = G
  outside : g.topLevelExit = none

theorem made_of_function {f : Function} {g g' : Generator} {r : Routine}
    (hg : g.topLevelExit = none) (h : function ts f g = .ok r g') :
    ∃ t, MadeFrom (cellsOf ts) r g f.returns t ∧ g' = behind t ∧ r.symbol = symbolOf f.name := by
  have hcells : ∀ t ∈ ts, ∀ cell ∈ t.cell, cell ∈ cellsOf ts := fun t ht cell hc =>
    List.mem_filterMap.mpr ⟨t, ht, hc⟩
  obtain ⟨t, hr, hm, rfl⟩ := made_function hcells hg h
  have hsymbol : r.symbol = symbolOf f.name := congrArg Routine.symbol hr
  refine ⟨t, ⟨hg, ?_, congrArg Routine.frameSize hr⟩, rfl, hsymbol⟩
  rwa [hsymbol]

/-- Behind a function, all is known that was known in front of it. -/
theorem standing_function (hts : TopLevelStmt.rebindAll G ts = G) {f : Function}
    {g g' : Generator} {r : Routine} (hg : Standing G signatures g)
    (h : function ts f g = .ok r g') : Standing G signatures g' := by
  obtain ⟨t, hm, rfl, -⟩ := made_of_function hg.outside h
  refine ⟨hm.before.signatures.trans hg.signatures, ?_, hm.before.topLevelExit.trans hg.outside⟩
  -- Against itself, the function tells what global names mean behind it.
  have habreast : Abreast G g g := ⟨fun _ => rfl, ⟨hg.globals, hg.globals⟩, hg.outside, hg.outside⟩
  have hself := function_core hts habreast f
  rw [h] at hself
  revert hself
  generalize function (ts.map TopLevelStmt.core) f.core g = x
  rintro ⟨-, hgh⟩
  exact hgh.globals.1

/-- Pieces that follow one another, each from a state where the same is known. -/
inductive Pieces (G : String → Option Slot) (signatures : NameMap Signature)
    (ts : List TopLevelStmt) : Generator → List Piece → Generator → Prop
  | nil (g : Generator) : Pieces G signatures ts g [] g
  | cons {a : Piece} {ps : List Piece} {g' : Generator} : Standing G signatures a.before →
    Gen.function ts a.function a.before = .ok a.routine a.after →
    Pieces G signatures ts a.after ps g' → Pieces G signatures ts a.before (a :: ps) g'

theorem pieces_of_functions (hts : TopLevelStmt.rebindAll G ts = G) : ∀ {fs : List Function}
    {g g' : Generator} {rs : List Routine}, Standing G signatures g →
    functions ts fs g = .ok rs g' → ∃ ps, Pieces G signatures ts g ps g' ∧
      ps.map (·.function) = fs ∧ ps.map (·.routine) = rs
  | [], _, _, _, _, h => by
    cases h
    exact ⟨[], .nil _, rfl, rfl⟩
  | f :: fs, g, g', rs, hg, h => by
    obtain ⟨r, g₁, h₁, h⟩ := bind_ok.mp h
    obtain ⟨rest, g₂, h₂, h⟩ := bind_ok.mp h
    cases h
    obtain ⟨ps, hps, hfs, hrs⟩ := pieces_of_functions hts (standing_function hts hg h₁) h₂
    refine ⟨⟨f, g, g₁, r⟩ :: ps, .cons (a := ⟨f, g, g₁, r⟩) hg h₁ hps, ?_, ?_⟩
    · rw [List.map_cons, hfs]
    · rw [List.map_cons, hrs]

namespace Pieces

variable {g g' : Generator} {ps : List Piece}

theorem of_mem (h : Pieces G signatures ts g ps g') {a : Piece} (ha : a ∈ ps) :
    Standing G signatures a.before ∧
      Gen.function ts a.function a.before = .ok a.routine a.after := by
  induction h with
  | nil => cases ha
  | cons hs hrun _ ih =>
    rcases List.mem_cons.mp ha with rfl | ha
    · exact ⟨hs, hrun⟩
    · exact ih ha

theorem symbols (h : Pieces G signatures ts g ps g') :
    ps.map (·.routine.symbol) = ps.map (symbolOf ·.function.name) :=
  List.map_congr_left fun _ ha => by
    obtain ⟨hs, hrun⟩ := h.of_mem ha
    obtain ⟨-, -, -, hsymbol⟩ := made_of_function hs.outside hrun
    exact hsymbol

/-- A piece only adds to what is counted and pooled. -/
theorem grows_of_function {f : Function} {r : Routine} (hg : g.topLevelExit = none)
    (h : Gen.function ts f g = .ok r g') : g.Grows g' := by
  obtain ⟨t, hm, rfl, -⟩ := made_of_function hg h
  exact ⟨hm.before.labels, hm.before.strings, hm.before.floats⟩

theorem grows (h : Pieces G signatures ts g ps g') : g.Grows g' := by
  induction h with
  | nil g => exact .refl g
  | cons hs hrun _ ih => exact (grows_of_function hs.outside hrun).trans ih

theorem between (h : Pieces G signatures ts g ps g') {a : Piece} (ha : a ∈ ps) :
    g.Grows a.before ∧ a.after.Grows g' := by
  induction h with
  | nil => cases ha
  | cons hs hrun hrest ih =>
    rcases List.mem_cons.mp ha with rfl | ha
    · exact ⟨.refl _, hrest.grows⟩
    · obtain ⟨hbefore, hafter⟩ := ih ha
      exact ⟨(grows_of_function hs.outside hrun).trans hbefore, hafter⟩

/-- No number belongs to two pieces. -/
theorem eq_of_number (h : Pieces G signatures ts g ps g') {a b : Piece} (ha : a ∈ ps)
    (hb : b ∈ ps) {n : Nat} (hna : a.before.labels < n ∧ n ≤ a.after.labels)
    (hnb : b.before.labels < n ∧ n ≤ b.after.labels) : a = b := by
  induction h with
  | nil => cases ha
  | cons _ _ hrest ih =>
    rcases List.mem_cons.mp ha with ha | ha <;> rcases List.mem_cons.mp hb with hb | hb
    · exact ha.trans hb.symm
    · have hle := (hrest.between hb).1.labels
      rw [← ha] at hle
      omega
    · have hle := (hrest.between ha).1.labels
      rw [← hb] at hle
      omega
    · exact ih ha hb

/-- What is in a pool at the end was there at the start, or a piece put it in. -/
theorem origin {α : Type} (pool : Generator → Array α) (h : Pieces G signatures ts g ps g') {x : α}
    (hx : x ∈ pool g') : x ∈ pool g ∨ ∃ a ∈ ps, x ∈ pool a.after ∧ x ∉ pool a.before := by
  induction h with
  | nil => exact .inl hx
  | @cons a ps g' _ _ _ ih =>
    rcases ih hx with hafter | ⟨b, hb, hput⟩
    · by_cases hbefore : x ∈ pool a.before
      · exact .inl hbefore
      · exact .inr ⟨a, List.mem_cons_self, hafter, hbefore⟩
    · exact .inr ⟨b, List.mem_cons_of_mem _ hb, hput⟩

/-- The labels a piece places or jumps to have its numbers. -/
theorem numbers {a : Piece} (hs : Standing G signatures a.before)
    (hrun : Gen.function ts a.function a.before = .ok a.routine a.after) {mark : Mark} {n : Nat}
    (hl : .numbered mark n ∈ placed a.routine.body ∨ .numbered mark n ∈ jumps a.routine.body) :
    a.before.labels < n ∧ n ≤ a.after.labels := by
  obtain ⟨t, hm, hafter, -⟩ := made_of_function hs.outside hrun
  have hlabelled := hm.made.labelled (List.cons_ne_nil _ _)
  have hplaced : .numbered mark n ∈ placed a.routine.body := by
    refine hl.elim id fun hl => (hlabelled.exits _ hl).resolve_right fun he => ?_
    rcases hm.exit he with he | ⟨trap, he⟩ <;> cases he
  obtain ⟨_, _, he, hn⟩ := hlabelled.numbered.between _ hplaced
  cases he
  rwa [hafter]

end Pieces

end Gen

end ScriptLang
