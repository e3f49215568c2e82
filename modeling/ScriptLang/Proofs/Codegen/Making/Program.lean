import ScriptLang.Proofs.Codegen.Making.Statement
import ScriptLang.Proofs.Codegen.Registration

/-!
# The shapes of code for functions

The body of every function of a listing has one of the shapes, from a stage where nothing
was handed out. Functions are generated one behind the other, so labels and constants of
one are not those of the next.
-/

namespace ScriptLang

open Assembly

namespace Gen

variable {cells : List Slot} {s : Stage}

/-- An argument is stored in the slot of its parameter. -/
theorem admits_receive {slot : Slot} (h : s.generator.Names slot) (p : Passage) :
    ∀ i ∈ p.receive slot, s.Admits i := by
  have hstore := fun r => admits_store h (.register r) rfl
  cases p with
  | register r => exact List.forall_mem_singleton.mpr (hstore r)
  | float x =>
    have hlow : s.Addresses slot.low := .part (.inl h) slot.low_mem_parts
    have hnamed : ∃ n, s.generator.Names n ∧ slot.low ∈ n.parts := ⟨slot, h, slot.low_mem_parts⟩
    simp [Passage.receive, Stage.admits_iff, Instruction.Level, hlow, hnamed]
  | stack i =>
    refine List.forall_mem_cons.mpr ⟨?_, List.forall_mem_singleton.mpr (hstore .rax)⟩
    have harg : s.Addresses (.frame (16 + 8 * i)) := .argument i
    simp [Stage.admits_iff, Instruction.Level, harg]

theorem shapes_receiveParameters : ∀ (ps : List Parameter) (passages : List Passage) (s : Stage),
    Shaped cells (receiveParameters ps passages) s
  | p :: ps, passage :: passages, _ =>
    (shapes_declare p.name _ true).bind fun _ _ _ _ h =>
      (shapes_emit (admits_receive h passage)).andThen fun _ u =>
        shapes_receiveParameters ps passages u
  | [], _, _ | _ :: _, [], _ => .pure trivial

/-- A statement of the top level; `return`, `break` and `continue` lead to its end. -/
theorem made_topLevelStatement {t : TopLevelStmt} (ht : ∀ cell ∈ t.cell, cell ∈ cells)
    (hs : s.generator.Rooted) {g : Generator}
    (h : topLevelStatement t s.generator = .ok () g) :
    ∃ (c : List Instruction) (u : Stage), Makes cells (s.exiting none) c (u.exiting none) ∧
      u.generator = g ∧ g.code = s.generator.code ++ c := by
  have hend : ∀ {x : Gen Unit}, (∀ v, Shaped cells x v) →
      (x >>= fun _ => emit [.label (.numbered .topEnd s.number)])
        (s.numbered.exiting (some (.numbered .topEnd s.number))).generator = .ok () g →
      ∃ (c : List Instruction) (u : Stage), Makes cells (s.exiting none) c (u.exiting none) ∧
        u.generator = g ∧ g.code = s.generator.code ++ c := by
    intro x hx h
    obtain ⟨_, u, c, hm, -, hc, -, h⟩ := (hx (s.numbered.exiting _)).run hs h
    cases h
    have hmade := Makes.topLevel (s := s.exiting none) hm
    exact ⟨_, u.emitting _, hmade.thenEmitting _, rfl, Array.ext' (by
      simp [hc, Stage.exiting, Stage.numbered, Stage.number])⟩
  obtain ⟨_, _, ⟨⟩, h⟩ := bind_ok.mp h
  obtain ⟨_, _, ⟨⟩, h⟩ := bind_ok.mp h
  obtain ⟨stmt, cell⟩ := t
  cases cell with
  | none => cases stmt <;> exact hend (shapes_statement _) h
  | some cell =>
    cases stmt with
    | declare name constant type value span =>
      refine hend (x := do
        emitDeclaration (some cell) name constant type (← option value) span.start)
        (fun v => ?_) ((congrFun (bind_assoc _ _ _) _).trans h)
      exact (shapes_option value v).andThen fun value _ =>
        shapes_emitDeclaration (some cell) ht name constant type value span.start
    | _ => exact hend (shapes_statement _) h

theorem made_topLevelStatements : ∀ {ts : List TopLevelStmt},
    (∀ t ∈ ts, ∀ cell ∈ t.cell, cell ∈ cells) → ∀ {s : Stage}, s.generator.Rooted →
    ∀ {g : Generator}, topLevelStatements ts s.generator = .ok () g →
    ∃ (c : List Instruction) (u : Stage), Makes cells (s.exiting none) c u ∧
      u.generator = g ∧ g.code = s.generator.code ++ c
  | [], _, s, _, _, h => by
    cases h
    exact ⟨[], s.exiting none, .nothing _, rfl, Array.appendList_nil.symm⟩
  | t :: ts, hts, s, hs, g, h => by
    obtain ⟨ht, hts⟩ := List.forall_mem_cons.mp hts
    obtain ⟨_, g', h', h⟩ := bind_ok.mp h
    obtain ⟨c, u, hm, rfl, hc⟩ := made_topLevelStatement ht hs h'
    obtain ⟨d, v, hm', rfl, hd⟩ := made_topLevelStatements hts (s := u) ((hm.before hs).rooted hs) h
    exact ⟨c ++ d, v, hm.append hm', rfl, Array.ext' (by simp [hd, hc])⟩

/-- Where the body of a function starts. -/
def entry (g : Generator) (current : CurrentFunction) : Stage :=
  ⟨{ g with frame := .new, code := #[], loops := [], current := some current }, []⟩

/-- The end of a function: its value is zero, and what was made is its body. -/
theorem made_end {start t : Stage} {c : List Instruction} (hm : Makes cells start c t)
    (hstart : start.generator.Rooted) (hc : t.generator.code.toList = c) {x : Gen Unit}
    (hx : ∀ v, Shaped cells x v) (type : ValueType) (symbol : String) {r : Routine}
    {g' : Generator} (h : (do
      x
      emitZero type
      let g ← get
      modify fun g : Generator => { g with current := none }
      return (⟨symbol, g.frame.size, g.code.toList⟩ : Routine)) t.generator = .ok r g') :
    ∃ u : Stage, r = ⟨symbol, u.generator.frame.size, r.body⟩ ∧ Makes cells start r.body u ∧
      g' = { u.generator with current := none } := by
  obtain ⟨_, u, d, hm₁, -, hd, hr, h⟩ := (hx t).run ((hm.before hstart).rooted hstart) h
  have hzero : Shaped cells (emitZero type) u := shapes_emitZero type
  obtain ⟨_, v, e, hm₂, -, he, -, h⟩ := hzero.run hr h
  cases h
  have hcode : v.generator.code.toList = c ++ d ++ e := by
    rw [he, hd]
    simp [hc]
  exact ⟨v, rfl, by rw [hcode]; exact (hm.append hm₁).append hm₂, rfl⟩

/-- A function is generated from a state outside of functions. -/
theorem made_function {topLevel : List TopLevelStmt}
    (ht : ∀ t ∈ topLevel, ∀ cell ∈ t.cell, cell ∈ cells) {f : Function} {g g' : Generator}
    {r : Routine} (hg : g.topLevelExit = none) (h : function topLevel f g = .ok r g') :
    ∃ t : Stage, r = ⟨symbolOf f.name, t.generator.frame.size, r.body⟩ ∧
      Makes cells (entry g ⟨symbolOf f.name, f.returns⟩) r.body t ∧
      g' = { t.generator with current := none } := by
  let start := entry g ⟨symbolOf f.name, f.returns⟩
  have hstart : start.generator.Rooted := List.cons_ne_nil _ _
  have hbody : ∀ v, Shaped cells (inScope (statements f.body.body)) v := fun v =>
    .inScope (shapes_statements _ _)
  obtain ⟨_, _, ⟨⟩, h⟩ := bind_ok.mp h
  have hreceive : Shaped cells (receiveParameters f.parameters
      (Passage.ofTypes (f.parameters.map (·.type.valueType)))) start :=
    shapes_receiveParameters _ _ start
  obtain ⟨_, t, c, hm, -, hc, hr, h⟩ := hreceive.run hstart h
  have hc : t.generator.code.toList = c := by rw [hc]; exact Array.toList_appendList
  dsimp only at h
  split at h
  · obtain ⟨_, g₁, h₁, h⟩ := bind_ok.mp h
    obtain ⟨d, u, hm', rfl, hd⟩ := made_topLevelStatements ht hr h₁
    have hexit : t.exiting none = t := by
      have he : t.generator.topLevelExit = none := (hm.before hstart).topLevelExit.trans hg
      rw [Stage.exiting, ← he]
    rw [hexit] at hm'
    exact made_end (hm.append hm') hstart (by rw [hd]; simp [hc]) hbody _ _ h
  · exact made_end hm hstart hc hbody _ _ h

/-- How a function was generated. -/
structure MadeFrom (cells : List Slot) (r : Routine) (g : Generator) (returns : DeclaredType)
    (t : Stage) : Prop where
  outside : g.topLevelExit = none
  made : Makes cells (entry g ⟨r.symbol, returns⟩) r.body t
  frameSize : r.frameSize = t.generator.frame.size

/-- The state behind a function. -/
def behind (t : Stage) : Generator := { t.generator with current := none }

namespace MadeFrom

variable {cells : List Slot} {r : Routine} {g : Generator} {returns : DeclaredType} {t : Stage}

theorem before (h : MadeFrom cells r g returns t) : (entry g ⟨r.symbol, returns⟩).Before t :=
  h.made.before (List.cons_ne_nil _ _)

/-- The frame is a multiple of 16 that covers all that was handed out, the least one. -/
theorem frame_covers (h : MadeFrom cells r g returns t) :
    16 ∣ r.frameSize ∧ t.generator.frame.used ≤ r.frameSize ∧
      r.frameSize < t.generator.frame.used + 16 := by
  have hu : 0 ≤ t.generator.frame.used := h.before.used
  rw [h.frameSize, Frame.size, Int.tdiv_eq_ediv_of_nonneg (by omega)]
  omega

/-- Out of a function, jumps lead to its end and to the handlers of traps. -/
theorem exit (h : MadeFrom cells r g returns t) {l : Label}
    (hl : (entry g ⟨r.symbol, returns⟩).generator.Exit l) :
    l = .epilogue r.symbol ∨ ∃ trap, l = .trap trap := by
  cases hl with
  | again he => cases he
  | done he => cases he
  | topLevel he => cases h.outside.symm.trans he
  | epilogue => exact .inl rfl
  | trap trap => exact .inr ⟨trap, rfl⟩

end MadeFrom

/-- Functions are generated one behind the other. -/
inductive Routines (topLevel : List TopLevelStmt) :
    Generator → List Function → List Routine → Generator → Prop
  | nil (g : Generator) : Routines topLevel g [] [] g
  | cons {g g' : Generator} {f : Function} {fs : List Function} {r : Routine}
      {rs : List Routine} {t : Stage} : function topLevel f g = .ok r (behind t) →
    r.symbol = symbolOf f.name → MadeFrom (cellsOf topLevel) r g f.returns t →
    Routines topLevel (behind t) fs rs g' → Routines topLevel g (f :: fs) (r :: rs) g'

namespace Routines

variable {topLevel : List TopLevelStmt} {g g' : Generator} {fs : List Function}
  {rs : List Routine}

theorem symbols (h : Routines topLevel g fs rs g') :
    rs.map (·.symbol) = fs.map (symbolOf ·.name) := by
  induction h with
  | nil => rfl
  | cons _ hs _ _ ih => rw [List.map_cons, List.map_cons, hs, ih]

/-- Functions add to the pools, and take numbers for their labels. -/
theorem pools (h : Routines topLevel g fs rs g') : g.labels ≤ g'.labels ∧
    g.strings.toList <+: g'.strings.toList ∧ g.floats.toList <+: g'.floats.toList := by
  induction h with
  | nil => exact ⟨Nat.le_refl _, List.prefix_rfl, List.prefix_rfl⟩
  | cons _ _ hm _ ih =>
    have hb := hm.before
    exact ⟨Nat.le_trans hb.labels ih.1, hb.strings.trans ih.2.1, hb.floats.trans ih.2.2⟩

/-- How one of the functions was generated, from a state with a property that each function
keeps. -/
theorem made {p : Generator → Prop}
    (hp : ∀ {r g returns t}, MadeFrom (cellsOf topLevel) r g returns t → p g → p (behind t))
    (h : Routines topLevel g fs rs g') (hg : p g) {r : Routine} (hr : r ∈ rs) :
    ∃ f ∈ fs, ∃ g₁ t, p g₁ ∧ function topLevel f g₁ = .ok r (behind t) ∧
      MadeFrom (cellsOf topLevel) r g₁ f.returns t ∧
      t.generator.strings.toList <+: g'.strings.toList ∧
      t.generator.floats.toList <+: g'.floats.toList := by
  induction h with
  | nil => cases hr
  | @cons g _ f _ _ _ t hrun _ hm hrest ih =>
    rcases List.mem_cons.mp hr with rfl | hr
    · exact ⟨f, List.mem_cons_self, g, t, hg, hrun, hm, hrest.pools.2⟩
    · obtain ⟨f', hf, hmade⟩ := ih (hp hm hg) hr
      exact ⟨f', List.mem_cons_of_mem _ hf, hmade⟩

end Routines

theorem routines_functions {topLevel : List TopLevelStmt} : ∀ {fs : List Function}
    {g g' : Generator} {rs : List Routine}, g.topLevelExit = none →
    functions topLevel fs g = .ok rs g' → Routines topLevel g fs rs g'
  | [], _, _, _, _, h => by
    cases h
    exact .nil _
  | f :: fs, g, g', rs, hg, h => by
    obtain ⟨r, g₁, h₁, h⟩ := bind_ok.mp h
    obtain ⟨rest, g₂, h₂, h⟩ := bind_ok.mp h
    cases h
    have hcells : ∀ t ∈ topLevel, ∀ cell ∈ t.cell, cell ∈ cellsOf topLevel := fun t ht cell hc =>
      List.mem_filterMap.mpr ⟨t, ht, hc⟩
    obtain ⟨t, hr, hm, rfl⟩ := made_function hcells hg h₁
    have hexit := (hm.before (List.cons_ne_nil _ _)).topLevelExit.trans hg
    rw [hr] at h₁ ⊢
    exact .cons h₁ rfl ⟨hg, hm, rfl⟩ (routines_functions (g := behind t) hexit h₂)

/-! ## Registration -/

/-- Functions are known by the symbols of functions that are there. -/
def Known (functions : List Function) (g : Generator) : Prop :=
  ∀ name s, g.signatures.find? name = some s → ∃ f ∈ functions, s.symbol = symbolOf f.name

/-- What is known of a program before its functions are generated. -/
structure Registered (p : Program) (topLevel : List TopLevelStmt) (g : Generator) : Prop where
  topLevelExit : g.topLevelExit = none
  known : Known p.functions g
  globals : ∀ name slot, g.globals.find? name = some slot → slot ∈ cellsOf topLevel
  locations : (cellsOf topLevel).map (·.location) =
    (cellNames [] (p.topLevel.filterMap declared?)).map Location.cell
  stmts : topLevel.map (·.stmt) = p.topLevel
  housed : ∀ t ∈ topLevel, Housed t
  declared : ∀ name ∈ p.topLevel.filterMap declared?, (g.globals.find? name).isSome = true

theorem registered_register {p : Program} {topLevel : List TopLevelStmt} {g : Generator}
    (h : register p .new = .ok topLevel g) : Registered p topLevel g := by
  obtain ⟨-, rfl, rfl⟩ := register_ok h
  refine ⟨rfl, fun name s hs => ?_, fun name slot hn => ?_, locations_equipAll _ _ _,
    stmts_equipAll _ _ _, housed_equipAll _ _, fun name hn => isSome_find?_declared hn _ _ _⟩
  · obtain ⟨f, hf, he⟩ := List.mem_map.mp ((NameMap.find?_insertAll_cases hs).resolve_right nofun)
    cases he
    exact ⟨f, hf, rfl⟩
  · exact (find?_housing_cases hn).resolve_right nofun

/-- The cells that are listed are those of the statements, by name. -/
theorem names_of_locations : ∀ (ts : List TopLevelStmt) (names : List String),
    (cellsOf ts).map (·.location) = names.map Location.cell →
    (ts.filterMap fun t => match t.cell with
      | some ⟨.cell name, type, _⟩ => some (name, type.size / 8)
      | _ => none).map (·.1) = names
  | [], [], _ => rfl
  | ⟨_, none⟩ :: ts, names, h => names_of_locations ts names h
  | ⟨_, some ⟨location, _, _⟩⟩ :: ts, name :: names, h => by
    obtain ⟨hl, hrest⟩ := List.cons_eq_cons.mp h
    cases hl
    exact congrArg (name :: ·) (names_of_locations ts names hrest)

/-- A listing is what its functions were made into, from what was registered. -/
theorem routines_program {p : Program} {l : Listing} {g' : Generator}
    (h : program p .new = .ok l g') : ∃ topLevel g, Registered p topLevel g ∧
      Routines topLevel g (lastOfName p.functions) l.routines g' ∧
      l.cells.map (·.1) = cellNames [] (p.topLevel.filterMap declared?) ∧
      l.strings = g'.strings.toList ∧ l.floats = g'.floats.toList := by
  obtain ⟨topLevel, g, hg, h⟩ := bind_ok.mp h
  obtain ⟨routines, g₁, hr, h⟩ := bind_ok.mp h
  cases h
  have hg := registered_register hg
  exact ⟨topLevel, g, hg, routines_functions hg.topLevelExit hr,
    names_of_locations _ _ hg.locations, rfl, rfl⟩

end Gen

theorem Program.generated_of_compile {p : Program} {c : Compiled} (h : p.compile = .ok c) :
    ∃ g, Gen.program p .new = .ok c.listing g := by
  unfold Program.compile at h
  split at h
  · next g hg =>
    cases h
    exact ⟨g, hg⟩
  · cases h

/-- Every function of a compiled program was made from the code of its parts. -/
theorem Program.made_of_compile {p : Program} {c : Compiled} (h : p.compile = .ok c)
    {r : Routine} (hr : r ∈ c.listing.routines) :
    ∃ cells g returns t, Gen.MadeFrom cells r g returns t := by
  obtain ⟨g', hg⟩ := generated_of_compile h
  obtain ⟨topLevel, g, -, hroutines, -⟩ := Gen.routines_program hg
  obtain ⟨f, -, g₁, t, -, -, hmade, -⟩ := hroutines.made (p := fun _ => True) (fun _ _ => trivial)
    trivial hr
  exact ⟨_, g₁, _, t, hmade⟩

end ScriptLang
