import ScriptLang.Proofs.Codegen.Pool.Statement
import ScriptLang.Proofs.Codegen.Rearrangement.Program
import ScriptLang.Proofs.Codegen.Site
import ScriptLang.Proofs.Codegen.Totality

/-!
# The pool of a program

Registration puts the 1 of steps and each float constant of the program in the pool, once. Code
of a function is generated for parts at its sites only, and those draw on what is there: the
pool of the listing is the one of registration, and a label of it in the code of a function is
told by the site that generation came to.
-/

namespace ScriptLang

open Assembly Gen Generator

/-- The label of a place of the pool stands at the bits that are there. -/
theorem mem_floatConstants {l : Listing} {n : Nat} {bits : UInt64} :
    Datum.float (.float n) bits ∈ l.floatConstants ↔ l.floats[n]? = some bits := by
  rw [Listing.floatConstants, Listing.pool, List.mem_mapIdx, List.getElem?_eq_some_iff]
  constructor
  · rintro ⟨i, hi, h⟩
    cases h
    exact ⟨hi, rfl⟩
  · rintro ⟨hn, rfl⟩
    exact ⟨n, hn, rfl⟩

section

variable {pool : Array UInt64} {p : Program} {f : Function} {ts : List TopLevelStmt}
  {g g' : Generator} {k : Nat} {i : Instruction} {n : Nat}

/-- In the body of a function, a part at a site names the float, where generation comes to it. -/
def NamedFor (pool : Array UInt64) (p : Program) (ts : List TopLevelStmt) (f : Function)
    (g : Generator) (k : Nat) (i : Instruction) (n : Nat) : Prop :=
  ∃ (j : Part) (site : Site j) (x : j.Tree) (h : Generator), site.Holds x p f ∧
    site.lead ts f g = .ok () h ∧ FloatUse pool j x h k i n

theorem Pooled.mono {xs ys : List Float} (h : Pooled pool ys) (hs : xs ⊆ ys) : Pooled pool xs :=
  fun x hx => h x (List.cons_subset_cons _ hs hx)

theorem Pooled.of_function (h : Pooled pool (bodyFloats p.body)) (hf : f ∈ p.functions) :
    Pooled pool (bodyFloats f.body.body) := by
  obtain ⟨name, parameters, returns, ⟨body, inner⟩, span⟩ := f
  exact h.mono fun x hx => p.mem_floats.mpr (.inl ⟨_, hf, hx⟩)

theorem Pooled.of_topLevel (h : Pooled pool (bodyFloats p.body)) :
    Pooled pool (bodyFloats p.topLevel) := h.mono fun _ hx =>
  p.mem_floats.mpr (.inr ((mem_bodyFloats _).mp hx))

/-- Neither the frame nor the end of a function names a float. -/
theorem getElem?_body_of_float {r : Routine} {m : Nat} (hi : r.code[m]? = some i)
    (hn : Label.float n ∈ i.labels) : ∃ k, m = r.prologue.length + k ∧ r.body[k]? = some i := by
  have hprologue : Floatless r.prologue := by
    unfold Routine.prologue
    split <;> simp [Instruction.labels, Instruction.references]
  have hepilogue : Floatless r.epilogue := by
    simp [Routine.epilogue, Instruction.labels, Instruction.references]
  have hbehind : r.prologue.length ≤ m := by
    by_contra hm
    rw [Routine.code, List.append_assoc, List.getElem?_append_left (by omega)] at hi
    exact hprologue i (List.mem_of_getElem? hi) n hn
  obtain ⟨k, rfl⟩ := Nat.exists_eq_add_of_le hbehind
  refine ⟨k, rfl, ?_⟩
  rw [Routine.code, List.append_assoc, List.getElem?_append_right (Nat.le_add_right _ _),
    Nat.add_sub_cancel_left] at hi
  rcases Nat.lt_or_ge k r.body.length with hk | hk
  · rwa [List.getElem?_append_left hk] at hi
  · rw [List.getElem?_append_right hk] at hi
    exact absurd hn (hepilogue i (List.mem_of_getElem? hi) n)

end

namespace Gen

variable {pool : Array UInt64} {p : Program} {f : Function} {ts : List TopLevelStmt}
  {g g' : Generator}

namespace Dry

theorem receiveParameters : ∀ (ps : List Parameter) (passages : List Passage),
    Dry (receiveParameters ps passages)
  | [], _ | _ :: _, [] => pure _
  | p :: ps, passage :: passages => (declare p.name _ true).bind fun _ =>
    (emitFixed (fixedCode_receive passage)).bind fun _ => receiveParameters ps passages

end Dry

/-- Registration collects the 1 of steps and the constants of the program. -/
theorem floats_register (h : register p .new = .ok ts g) :
    g.floats = internedAll #[] ((1 :: bodyFloats p.body).map (·.toBits)) := by
  obtain ⟨-, -, rfl⟩ := register_ok h
  rfl

/-! ## Functions -/

theorem draws_housed (cell : Option Slot) (s : Stmt) (hx : Pooled pool s.floats) :
    Draws pool (UsedIn pool .statement s g) (housed cell s) g := by
  have hplain := draws_statement s g hx
  cases s with
  | declare name constant type value span =>
    cases cell with
    | none => exact hplain
    | some cell =>
      refine .bind (draws_option value g hx fun e he k i n => ?_) fun _ _ _ =>
        (Dry.emitDeclaration _ _ _ _ _ _).draws
      subst he
      exact .within (.initial name constant type span) rfl
  | _ => cases cell <;> exact hplain

theorem draws_topLevelStatement {P : Nat → Instruction → Nat → Prop} (t : TopLevelStmt)
    (hx : Pooled pool t.stmt.floats)
    (hP : ∀ h, enterTopLevel g = .ok () h →
      ∀ k i n, UsedIn pool .statement t.stmt h k i n → P k i n) :
    Draws pool P (topLevelStatement t) g := by
  refine .bind Dry.nextLabel.draws fun number g₁ h₁ =>
    .bind (.modify (fun h => ⟨h.floats, h.loops, ?_⟩) rfl) fun _ g₂ h₂ => ?_
  · rintro _ ⟨⟩
    exact fun _ => nofun
  have hrun : Draws pool P (do
      housed t.cell t.stmt
      emit [.label (.numbered .topEnd number)]) g₂ :=
    .bind ((draws_housed t.cell t.stmt hx).mono (hP g₂ ((bind_of_ok _ h₁).trans h₂)))
      fun _ _ _ => (Dry.label (by simp)).draws
  obtain ⟨stmt, cell⟩ := t
  cases stmt with
  | declare name constant type value span =>
    cases cell with
    | none => exact hrun
    | some cell =>
      rw [housed, bind_assoc] at hrun
      exact hrun
  | _ => cases cell <;> exact hrun

theorem draws_topLevelStatements : ∀ {P : Nat → Instruction → Nat → Prop}
    (ts : List TopLevelStmt) (g : Generator), Pooled pool (bodyFloats (ts.map (·.stmt))) →
    (∀ before t after h h', ts = before ++ t :: after → topLevelFront before g = .ok () h →
      enterTopLevel h = .ok () h' → ∀ k i n, UsedIn pool .statement t.stmt h' k i n → P k i n) →
    Draws pool P (topLevelStatements ts) g
  | _, [], _, _, _ => .modify (fun h => ⟨h.floats, h.loops, nofun⟩) rfl
  | _, t :: ts, g, hx, hP =>
    .bind (draws_topLevelStatement t (pooled_append.mp hx).1 fun h hh => hP [] t ts g h rfl rfl hh)
      fun _ h ht => draws_topLevelStatements ts h (pooled_append.mp hx).2
        fun before t' after k k' hsplit hfront =>
          hP (t :: before) t' after k k' (congrArg (t :: ·) hsplit) ((bind_of_ok _ ht).trans hfront)

theorem body_function {r : Routine} (h : function ts f g = .ok r g') :
    r.body = g'.code.toList := by
  have hleave : ∀ {k}, leaveFunction f k = .ok r g' → r.body = g'.code.toList := by
    intro k h
    obtain ⟨_, _, -, h⟩ := bind_ok.mp h
    obtain ⟨_, _, -, h⟩ := bind_ok.mp h
    cases h
    rfl
  obtain ⟨_, _, -, h⟩ := bind_ok.mp h
  obtain ⟨_, _, -, h⟩ := bind_ok.mp h
  dsimp only at h
  split at h
  · obtain ⟨_, _, -, h⟩ := bind_ok.mp h
    exact hleave h
  · exact hleave h

/-- Behind the parameters and the top level, floats are named for sites in the statements. -/
theorem draws_leaveFunction {k k' : Generator} (hx : Pooled pool (bodyFloats f.body.body))
    (hk : enterFunction f g = .ok () k)
    (hstart : if f.name = "main" then topLevelStatements ts k = .ok () k' else k' = k) :
    Draws pool (NamedFor pool p ts f g) (leaveFunction f) k' := by
  refine .bind (.inScope ((draws_statements f.body.body _ hx).mono ?_)) fun _ _ _ => Dry.draws ?_
  · rintro m i n ⟨j, spot, x, h, hfill, hspot, hu⟩
    exact ⟨j, .body spot, x, h, hfill, (bind_of_ok _ (run_enterBody hk hstart)).trans hspot, hu⟩
  · exact (Dry.emitZero _).bind fun _ => .get_bind fun _ =>
      .bind (.modify fun _ => ⟨rfl, rfl, rfl, rfl⟩) fun _ => .pure _

/-- A part of the top level is at a site of `main`. -/
theorem namedFor_topLevel {k h h' : Generator} {before after : List TopLevelStmt} {t : TopLevelStmt}
    {m : Nat} {i : Instruction} {n : Nat} (hts : ts.map (·.stmt) = p.topLevel)
    (hmain : f.name = "main") (hk : enterFunction f g = .ok () k)
    (hsplit : ts = before ++ t :: after) (hfront : topLevelFront before k = .ok () h)
    (henter : enterTopLevel h = .ok () h') (hu : UsedIn pool .statement t.stmt h' m i n) :
    NamedFor pool p ts f g m i n := by
  obtain ⟨j, spot, x, u, hfill, hspot, hu⟩ := hu
  refine ⟨j, .topLevel (before.map TopLevelStmt.stmt) (after.map TopLevelStmt.stmt) spot, x, u,
    ⟨hmain, ?_⟩, ?_, hu⟩
  · rw [← hts, hsplit, List.map_append, List.map_cons, hfill]
  · rw [hsplit]
    exact Site.lead_topLevel (List.length_map ..).symm hk hfront henter hspot

/-- With the floats of its program in the pool, a function draws on it for what its sites need. -/
theorem draws_function (hts : ts.map (·.stmt) = p.topLevel) (hx : Pooled pool (bodyFloats p.body))
    (hf : f ∈ p.functions) (hg : g.floats = pool) (hexit : g.topLevelExit = none) :
    DrawsTo pool (NamedFor pool p ts f g) { g with code := #[] } (function ts f g) := by
  let entry : Generator := { g with
    frame := .new, code := #[], loops := [], current := some ⟨symbolOf f.name, f.returns⟩ }
  -- The code of a function starts empty, so places in it are places in the body.
  have hdraws : Draws pool (NamedFor pool p ts f g) (do
      receiveParameters f.parameters (Passage.ofTypes (f.parameters.map (·.type.valueType)))
      if f.name = "main" then topLevelStatements ts
      leaveFunction f) entry := by
    refine .bind (Dry.receiveParameters _ _).draws fun _ k hk => ?_
    dsimp only
    split
    · next hmain =>
      refine .bind (draws_topLevelStatements ts k (hts ▸ hx.of_topLevel)
        fun before t after h h' hsplit hfront henter m i n =>
          namedFor_topLevel hts hmain hk hsplit hfront henter) fun _ k' hk' => ?_
      exact draws_leaveFunction (hx.of_function hf) hk (by rwa [if_pos hmain])
    · next hmain => exact draws_leaveFunction (hx.of_function hf) hk (by rw [if_neg hmain])
  exact hdraws (.outside hg rfl hexit)

end Gen

/-- Generated from a state with the pool, a function leaves the pool as it is, however generation
ends. Each of its instructions that names a float stands in the body, for a part at a site. -/
structure Function.DrawsOn (pool : Array UInt64) (p : Program) (ts : List TopLevelStmt)
    (f : Function) (g : Generator) : Prop where
  failed : ∀ {e : Fault} {g' : Generator}, Gen.function ts f g = .error e g' → g'.floats = pool
  made : ∀ {r : Routine} {g' : Generator}, Gen.function ts f g = .ok r g' → g'.floats = pool
  named : ∀ {r : Routine} {g' : Generator}, Gen.function ts f g = .ok r g' →
    ∀ {m n : Nat} {i : Instruction}, r.code[m]? = some i → Label.float n ∈ i.labels →
      ∃ k, m = r.prologue.length + k ∧ NamedFor pool p ts f g k i n

namespace Gen

theorem drawsOn {pool : Array UInt64} {p : Program} {ts : List TopLevelStmt} {f : Function}
    {g : Generator} (hts : ts.map (·.stmt) = p.topLevel) (hx : Pooled pool (bodyFloats p.body))
    (hf : f ∈ p.functions) (hg : g.floats = pool) (hexit : g.topLevelExit = none) :
    f.DrawsOn pool p ts g := by
  have hdraws := draws_function hts hx hf hg hexit
  refine ⟨fun h => by rwa [h] at hdraws, fun h => ?_, fun {r g'} h m n i hi hn => ?_⟩
  · rw [h] at hdraws
    exact hdraws.1.floats
  · rw [h] at hdraws
    obtain ⟨-, c, hc, hnamed⟩ := hdraws
    have hbody : r.body = c := by
      rw [body_function h, hc, Array.toList_appendList]
      rfl
    obtain ⟨k, rfl, hk⟩ := getElem?_body_of_float hi hn
    exact ⟨k, rfl, by simpa using hnamed k i n (hbody ▸ hk) hn⟩

/-- One function comes behind another with the same pool. -/
theorem run_functionsDrawing {p : Program} {pool : Array UInt64} {ts : List TopLevelStmt}
    (hts : ts.map (·.stmt) = p.topLevel) (hx : Pooled pool (bodyFloats p.body)) :
    ∀ {fs : List Function} {g g' : Generator} {rs : List Routine}, fs ⊆ p.functions →
    g.floats = pool → g.topLevelExit = none → functions ts fs g = .ok rs g' → g'.floats = pool ∧
      ∀ r ∈ rs, ∃ f ∈ p.functions, ∃ g₁ g₂, g₁.floats = pool ∧ g₁.topLevelExit = none ∧
        function ts f g₁ = .ok r g₂
  | [], _, _, _, _, hg, _, h => by
    cases h
    exact ⟨hg, nofun⟩
  | f :: fs, g, g', rs, hfs, hg, hexit, h => by
    obtain ⟨hf, hfs⟩ := List.cons_subset.mp hfs
    obtain ⟨r, g₁, h₁, h⟩ := bind_ok.mp h
    obtain ⟨rest, g₂, h₂, h⟩ := bind_ok.mp h
    cases h
    obtain ⟨t, hm, rfl, -⟩ := made_of_function hexit h₁
    obtain ⟨hg', hrest⟩ := run_functionsDrawing hts hx hfs
      ((drawsOn hts hx hf hg hexit).made h₁) (hm.before.topLevelExit.trans hexit) h₂
    exact ⟨hg', List.forall_mem_cons.mpr ⟨⟨f, hf, g, _, hg, hexit, h₁⟩, hrest⟩⟩

end Gen

/-- The floats of a program are collected before its functions are generated. Registration puts
the bits of 1 and of each float constant in the pool, each of them once. From then on no function
adds any, and a label of the pool is named only for a constant with the bits that stand there, or
for the step of a float where they are those of 1. So the listing has the pool of registration,
with the label of each place. -/
theorem Program.pool_of_register {p : Program} {ts : List TopLevelStmt} {g₀ : Generator}
    (h : Gen.register p .new = .ok ts g₀) :
    (∀ bits, bits ∈ g₀.floats ↔
      bits = Float.toBits 1 ∨ ∃ x ∈ bodyFloats p.body, bits = x.toBits) ∧
    g₀.floats.toList.Nodup ∧
    (∀ f ∈ p.functions, ∀ g : Generator, g.floats = g₀.floats → g.topLevelExit = none →
      f.DrawsOn g₀.floats p ts g) ∧
    ∀ c, p.compile = .ok c → c.listing.floats = g₀.floats.toList ∧
      (∀ n bits, Datum.float (.float n) bits ∈ c.listing.floatConstants ↔
        g₀.floats[n]? = some bits) ∧
      ∀ r ∈ c.listing.routines, ∃ f ∈ p.functions, ∃ g g' : Generator, g.floats = g₀.floats ∧
        g.topLevelExit = none ∧ Gen.function ts f g = .ok r g' := by
  have hfloats := Gen.floats_register h
  have hregistered := registered_register h
  have hmem : ∀ bits, bits ∈ g₀.floats ↔
      bits = Float.toBits 1 ∨ ∃ x ∈ bodyFloats p.body, bits = x.toBits := by
    intro bits
    rw [hfloats, mem_internedAll, List.map_cons, List.mem_cons, List.mem_map]
    simp [eq_comm]
  have hpooled : Pooled g₀.floats (bodyFloats p.body) :=
    List.forall_mem_cons.mpr ⟨(hmem _).mpr (.inl rfl), fun x hx => (hmem _).mpr (.inr ⟨x, hx, rfl⟩)⟩
  refine ⟨hmem, hfloats ▸ nodup_internedAll List.nodup_nil, fun f hf g hg hexit =>
    drawsOn hregistered.stmts hpooled hf hg hexit, fun c hc => ?_⟩
  obtain ⟨g', hg⟩ := generated_of_compile hc
  obtain ⟨ts', g₁, hregister, hg⟩ := bind_ok.mp hg
  cases h.symm.trans hregister
  obtain ⟨rs, g₂, hrs, hg⟩ := bind_ok.mp hg
  obtain ⟨_, _, ⟨⟩, hg⟩ := bind_ok.mp hg
  obtain ⟨hlisting, -⟩ := pure_ok.mp hg
  obtain ⟨hfloats₂, hroutines⟩ := run_functionsDrawing hregistered.stmts hpooled
    (lastOfName_subset p.functions) rfl hregistered.topLevelExit hrs
  rw [hlisting]
  exact ⟨congrArg Array.toList hfloats₂, fun n bits => by
    rw [mem_floatConstants, ← hfloats₂, Array.getElem?_toList], hroutines⟩

/-- A float constant in front of a step of a float: the label it is loaded from is told. -/
theorem Program.pool_of_register_constant :
    let f : Function := ⟨"main", [], .unit, ⟨[
      .declare "x" false none (some (.float 1.5 default)) default,
      .assign "x" (.step .preIncrement) none default], default⟩, default⟩
    let p : Program := ⟨[.function f], default⟩
    ∃ (c : Compiled) (ts : List TopLevelStmt) (g₀ g g' : Generator) (r : Routine) (m n : Nat),
      p.compile = .ok c ∧ Gen.register p .new = .ok ts g₀ ∧
      c.listing.floats.Nodup ∧ Float.toBits 1.5 ∈ c.listing.floats ∧
      r ∈ c.listing.routines ∧ Gen.function ts f g = .ok r g' ∧ g'.floats = g.floats ∧
      r.code[m]? = some (.loadFloat (.data (.float n) 0) .xmm0) ∧ ∃ k,
        NamedFor g₀.floats p ts f g k (.loadFloat (.data (.float n) 0) .xmm0) n := by
  intro f p
  have hwellFormed : wellFormed.InProgram p :=
    ⟨⟨trivial, ⟨.inr rfl, trivial⟩, ⟨⟨fun _ => rfl, fun _ => rfl⟩, trivial⟩, trivial⟩, trivial⟩
  obtain ⟨c, hc⟩ : ∃ c, p.compile = .ok c :=
    (p.compile_of_wellFormed hwellFormed).elim (·.2) fun h =>
      absurd rfl (h.1 f (List.mem_singleton_self f))
  obtain ⟨_, hg⟩ := generated_of_compile hc
  obtain ⟨ts, g₀, hregister, -⟩ := bind_ok.mp hg
  obtain ⟨hmem, hnodup, hdraws, hlisting⟩ := Program.pool_of_register hregister
  obtain ⟨hfloats, -, hroutines⟩ := hlisting c hc
  obtain ⟨-, _, hgenerates⟩ := generates_of_compile hc
  obtain ⟨r, hr, -⟩ := hgenerates f (List.mem_singleton_self f)
  obtain ⟨f', hf, g, g', hpool, hexit, hrun⟩ := hroutines r hr
  cases List.mem_singleton.mp hf
  have hdraws := hdraws f hf g hpool hexit
  -- The constant is generated in the body, where the declaration stands first.
  let site : Site .expression := .body (.within (.head false [f.body.body[1]])
    (.within (.initial "x" false none default) .here))
  obtain ⟨h, h', post, harrives⟩ := site.arrives (i := .expression) (x := .float 1.5 default)
    (p := p) (f := f) rfl (registered_register hregister).stmts rfl hexit hrun
  obtain ⟨type, hload⟩ := harrives.runs
  cases (bind_of_ok _ (internFloat_eq _ h)).symm.trans hload
  have hcode : r.code[r.prologue.length + h.code.size]? = some (.loadFloat (.data
      (.float ((h.floats.idxOf? (Float.toBits 1.5)).getD h.floats.size)) 0) .xmm0) := by
    rw [Routine.code, harrives.body]
    simp
  obtain ⟨k, -, hnamed⟩ := hdraws.named hrun hcode (List.mem_singleton_self _)
  refine ⟨c, ts, g₀, g, g', r, _, _, hc, hregister, hfloats ▸ hnodup, ?_, hr, hrun,
    (hdraws.made hrun).trans hpool.symm, hcode, k, hnamed⟩
  exact hfloats ▸ Array.mem_toList_iff.mpr ((hmem _).mpr (.inr ⟨1.5, List.mem_cons_self, rfl⟩))

end ScriptLang
