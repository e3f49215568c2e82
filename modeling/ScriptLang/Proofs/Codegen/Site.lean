import ScriptLang.Proofs.Codegen.Arrival
import ScriptLang.Proofs.Codegen.Linking

/-!
# Sites in programs

A site is a spot in the code of a function: among the statements of its body or, in `main`,
of the top level. Generation of a program comes by every site of the functions that count,
knowing all functions that count by their symbols.
-/

namespace ScriptLang

open Assembly Gen Generator

namespace Gen

/-- Generates what stands in front of all statements of a function: the parameters. -/
def enterFunction (f : Function) : Gen Unit := do
  modify fun g => { g with
    frame := .new, code := #[], loops := [], current := some ⟨symbolOf f.name, f.returns⟩ }
  receiveParameters f.parameters (Passage.ofTypes (f.parameters.map (·.type.valueType)))

/-- Generates what stands in front of the statements of a body. -/
def enterBody (statements : List TopLevelStmt) (f : Function) : Gen Unit := do
  enterFunction f
  if f.name = "main" then topLevelStatements statements
  modifyFrame .push

/-- Generates the statements of a function and its end. -/
def leaveFunction (f : Function) : Gen Routine := do
  inScope (statements f.body.body)
  emitZero f.returns.valueType
  let g ← get
  modify fun g => { g with current := none }
  return ⟨symbolOf f.name, g.frame.size, g.code.toList⟩

/-- Generates statements of the top level that others follow. -/
def topLevelFront : List TopLevelStmt → Gen Unit
  | [] => return
  | t :: ts => do
    topLevelStatement t
    topLevelFront ts

/-- Goes into a statement of the top level, with a label for its end. -/
def enterTopLevel : Gen Unit := do
  let number ← nextLabel
  modify fun g => { g with topLevelExit := some (.numbered .topEnd number) }

end Gen

/-- A spot in the code of a function, which for `main` begins with the top level. -/
inductive Site (i : Part) where
  | body (spot : Spot i (.body false))
  | topLevel (before after : List Stmt) (spot : Spot i .statement)

namespace Site

variable {i m : Part}

/-- The part stands at the site, in a function of the program. -/
def Holds (x : i.Tree) (p : Program) (f : Function) : Site i → Prop
  | body spot => f.body.body = spot.fill x
  | topLevel before after spot => f.name = "main" ∧ p.topLevel = before ++ spot.fill x :: after

/-- Generates what stands in front of the site. -/
def lead (statements : List TopLevelStmt) (f : Function) : Site i → Gen Unit
  | body spot => do
    enterBody statements f
    spot.lead
  | topLevel before _ spot => do
    enterFunction f
    topLevelFront (statements.take before.length)
    enterTopLevel
    spot.lead

/-- No loop has the site in its body. -/
def Open : Site i → Prop
  | body spot | topLevel _ _ spot => spot.Open

/-- A site in the tree at another one. -/
def append : Site m → Spot i m → Site i
  | body outer, inner => body (outer.append inner)
  | topLevel before after outer, inner => topLevel before after (outer.append inner)

/-- The innermost of the loops whose bodies hold the site, if there is one. -/
theorem innermost (site : Site i) : site.Open ∨ ∃ (outer : Site .statement) (loop : Loop)
    (inner : Spot i .statement),
      site = outer.append (.within (.loopBody loop) inner) ∧ inner.Open := by
  cases site with
  | body spot =>
    rcases spot.innermost with h | ⟨outer, loop, inner, rfl, h⟩
    · exact .inl h
    · exact .inr ⟨body outer, loop, inner, rfl, h⟩
  | topLevel before after spot =>
    rcases spot.innermost with h | ⟨outer, loop, inner, rfl, h⟩
    · exact .inl h
    · exact .inr ⟨topLevel before after outer, loop, inner, rfl, h⟩

theorem lead_append (statements : List TopLevelStmt) (f : Function) (inner : Spot i m)
    (outer : Site m) :
    (outer.append inner).lead statements f = (do outer.lead statements f; inner.lead) := by
  cases outer with
  | body outer => simp [append, lead, Spot.lead_append, bind_assoc]
  | topLevel before after outer => simp [append, lead, Spot.lead_append, bind_assoc]

theorem holds_append (x : i.Tree) {p : Program} {f : Function} (inner : Spot i m)
    (outer : Site m) : (outer.append inner).Holds x p f ↔ outer.Holds (inner.fill x) p f := by
  cases outer with
  | body outer => rw [append, Holds, Holds, Spot.fill_append]
  | topLevel before after outer => rw [append, Holds, Holds, Spot.fill_append]

end Site

namespace Gen

/-- Somewhere in the making of a function, with these functions known. -/
structure Within (f : Function) (signatures : NameMap Signature) (g : Generator) : Prop where
  balanced : Balanced g.code.toList
  signatures : g.signatures = signatures
  rooted : g.Rooted
  used : 0 ≤ g.frame.used
  current : g.current = some ⟨symbolOf f.name, f.returns⟩

/-- Among the statements of a function, outside of loops. -/
structure Inside (f : Function) (signatures : NameMap Signature) (g : Generator) : Prop
    extends Within f signatures g where
  loops : g.loops = []

section

variable {f : Function} {signatures : NameMap Signature} {g g' h : Generator}
  {c : List Instruction}

theorem Within.reaches {ls : List LoopLabels} (h : Within f signatures g)
    (hc : g.Reaches c ls g') : Within f signatures g' where
  balanced := by
    rw [hc.code, Array.toList_appendList]
    exact h.balanced.append hc.balanced
  signatures := hc.signatures.trans h.signatures
  rooted := hc.rooted
  used := Int.le_trans h.used hc.used
  current := hc.current.trans h.current

theorem Inside.later (h : Inside f signatures g) (hc : g.Continues c g') :
    Inside f signatures g' where
  toWithin := h.toWithin.reaches (.of_continues hc h.rooted)
  loops := hc.loops.trans h.loops

theorem inside_enterFunction (hx : enterFunction f g = .ok () h) :
    Inside f g.signatures h ∧ h.topLevelExit = g.topLevelExit := by
  obtain ⟨_, _, ⟨⟩, hx⟩ := bind_ok.mp hx
  have hentry : Inside f g.signatures (entry g ⟨symbolOf f.name, f.returns⟩).generator :=
    ⟨⟨.nil, rfl, List.cons_ne_nil _ _, Int.le_refl _, rfl⟩, rfl⟩
  obtain ⟨c, hc⟩ := continuing_receiveParameters _ _ _ _ _ hentry.rooted hx
  exact ⟨hentry.later hc, hc.topLevelExit⟩

theorem continuing_housed (cell : Option Slot) (s : Stmt) : Continuing (housed cell s) := by
  have hplain := continuing_statement s
  cases s with
  | declare name constant type value span =>
    cases cell with
    | none => exact hplain
    | some cell =>
      exact (continuing_option value).bind fun _ =>
        continuing_emitDeclaration (some cell) _ _ _ _ _
  | _ => cases cell <;> exact hplain

/-- A statement of the top level is generated with a label for its end, which is placed there. -/
theorem run_numberedTopLevel {t : TopLevelStmt} (hx : topLevelStatement t g = .ok () g') :
    ∃ h', enterTopLevel g = .ok () { g with
        labels := g.labels + 1, topLevelExit := some (.numbered .topEnd (g.labels + 1)) } ∧
      housed t.cell t.stmt { g with
        labels := g.labels + 1, topLevelExit := some (.numbered .topEnd (g.labels + 1)) } =
          .ok () h' ∧
      g' = { h' with
        code := h'.code ++ [Instruction.label (.numbered .topEnd (g.labels + 1))] } := by
  obtain ⟨_, _, ⟨⟩, hx⟩ := bind_ok.mp hx
  obtain ⟨_, _, ⟨⟩, hx⟩ := bind_ok.mp hx
  let exit : Label := .numbered .topEnd (g.labels + 1)
  let h : Generator := { g with labels := g.labels + 1, topLevelExit := some exit }
  have hrun : (do housed t.cell t.stmt; emit [.label exit]) h = .ok () g' := by
    obtain ⟨stmt, cell⟩ := t
    cases stmt with
    | declare name constant type value span =>
      cases cell with
      | none => exact hx
      | some cell => exact (congrFun (bind_assoc _ _ _) _).trans hx
    | _ => cases cell <;> exact hx
  obtain ⟨_, h', hstmt, hrun⟩ := bind_ok.mp hrun
  cases hrun
  exact ⟨h', rfl, hstmt, rfl⟩

/-- A statement of the top level stands in front of the label of its end. -/
theorem run_enterTopLevel {t : TopLevelStmt} (hg : Inside f signatures g)
    (hx : topLevelStatement t g = .ok () g') :
    ∃ h h', enterTopLevel g = .ok () h ∧ housed t.cell t.stmt h = .ok () h' ∧
      Inside f signatures h ∧ Inside f signatures g' ∧
      h.topLevelExit = some (.numbered .topEnd (g.labels + 1)) ∧
      h'.Appends [.label (.numbered .topEnd (g.labels + 1))] g' ∧ ∃ c, g.Appends c h' := by
  obtain ⟨h', henter, hstmt, rfl⟩ := run_numberedTopLevel hx
  have hh : Inside f signatures { g with
      labels := g.labels + 1, topLevelExit := some (.numbered .topEnd (g.labels + 1)) } :=
    ⟨⟨hg.balanced, hg.signatures, hg.rooted, hg.used, hg.current⟩, hg.loops⟩
  obtain ⟨c, hc⟩ := continuing_housed t.cell t.stmt _ () h' hh.rooted hstmt
  have hexit : Balanced [Instruction.label (.numbered .topEnd (g.labels + 1))] :=
    .of_level (by simp [Instruction.Level])
  exact ⟨_, h', henter, hstmt, hh, hh.later (hc.trans (.emitted h' hexit)), rfl,
    ⟨rfl, List.prefix_rfl⟩, c, hc.code, hc.strings⟩

/-- Behind the statements of the top level, no label is left that ends one. -/
theorem run_topLevelStatements : ∀ {ts : List TopLevelStmt} {g : Generator},
    Inside f signatures g → topLevelStatements ts g = .ok () g' →
    Inside f signatures g' ∧ g'.topLevelExit = none ∧ ∃ c, g.Appends c g'
  | [], g, hg, hx => by
    cases hx
    exact ⟨⟨⟨hg.balanced, hg.signatures, hg.rooted, hg.used, hg.current⟩, hg.loops⟩, rfl, [],
      .of_eq rfl rfl⟩
  | t :: ts, g, hg, hx => by
    obtain ⟨_, k, ht, hx⟩ := bind_ok.mp hx
    obtain ⟨_, _, -, -, -, hk, -, hlabel, c, hc⟩ := run_enterTopLevel hg ht
    obtain ⟨hg', hexit, d, hd⟩ := run_topLevelStatements hk hx
    exact ⟨hg', hexit, _, hc.trans (hlabel.trans hd)⟩

/-- Among the statements of the top level, one comes behind those in front. -/
theorem run_topLevelFront {t : TopLevelStmt} {after : List TopLevelStmt} :
    ∀ {before : List TopLevelStmt} {g : Generator}, Inside f signatures g →
    topLevelStatements (before ++ t :: after) g = .ok () g' →
    ∃ k, topLevelFront before g = .ok () k ∧ Inside f signatures k ∧
      topLevelStatements (t :: after) k = .ok () g'
  | [], g, hg, hx => ⟨g, rfl, hg, hx⟩
  | b :: before, g, hg, hx => by
    obtain ⟨_, k, hb, hx⟩ := bind_ok.mp hx
    obtain ⟨_, _, -, -, -, hk, -⟩ := run_enterTopLevel hg hb
    obtain ⟨k', hfront, hk', hx⟩ := run_topLevelFront hk hx
    exact ⟨k', (bind_of_ok _ hb).trans hfront, hk', hx⟩

/-- Generation comes by every statement of the top level, and what others append stands behind
its end. -/
theorem run_topLevelPart {t : TopLevelStmt} {front rest : List TopLevelStmt} {body : List Stmt}
    (hg : Inside f signatures g) (hx : topLevelStatements (front ++ t :: rest) g = .ok () g')
    (hbody : statements body g'.pushed = .ok () h) :
    ∃ k u u' after, topLevelFront front g = .ok () k ∧ enterTopLevel k = .ok () u ∧
      housed t.cell t.stmt u = .ok () u' ∧ Inside f signatures k ∧ Inside f signatures u ∧
      u.topLevelExit = some (.numbered .topEnd (k.labels + 1)) ∧
      u'.Appends (.label (.numbered .topEnd (k.labels + 1)) :: after) h := by
  obtain ⟨k, hk, hkin, hx⟩ := run_topLevelFront hg hx
  obtain ⟨_, w, hw, hx⟩ := bind_ok.mp hx
  obtain ⟨u, u', hu, hu', huin, hwin, hexit, hlabel, -⟩ := run_enterTopLevel hkin hw
  obtain ⟨-, -, c, hc⟩ := run_topLevelStatements hwin hx
  obtain ⟨-, d, hd⟩ := (continuing_statements body).run (Reaches.pushed g').rooted hbody
  have hpushed := (Reaches.pushed g').toAppends
  exact ⟨k, u, u', c ++ ([] ++ d), hk, hu, hu', hkin, huin, hexit,
    hlabel.trans (hc.trans (hpushed.trans hd))⟩

/-- Into the body leads what stands in front of it, which is the top level for `main`. -/
theorem run_enterBody {statements : List TopLevelStmt} {k k' : Generator}
    (hk : enterFunction f g = .ok () k)
    (hstart : if f.name = "main" then topLevelStatements statements k = .ok () k' else k' = k) :
    enterBody statements f g = .ok () k'.pushed := by
  refine (bind_of_ok _ hk).trans ?_
  split at hstart
  · next hmain =>
    rw [if_pos hmain]
    exact bind_of_ok _ hstart
  · next hmain =>
    rw [if_neg hmain, hstart]
    rfl

/-- A function is its parameters, for `main` the top level, the statements and the end. -/
theorem run_function {statements : List TopLevelStmt} {r : Routine}
    (hg : g.topLevelExit = none) (hx : function statements f g = .ok r g') :
    ∃ k k' h post, enterFunction f g = .ok () k ∧ Inside f g.signatures k ∧
      (if f.name = "main" then topLevelStatements statements k = .ok () k' else k' = k) ∧
      Inside f g.signatures k' ∧ k'.topLevelExit = none ∧
      Gen.statements f.body.body k'.pushed = .ok () h ∧ r.body = h.code.toList ++ post ∧
      h.strings.toList <+: g'.strings.toList := by
  obtain ⟨_, _, ⟨⟩, hx⟩ := bind_ok.mp hx
  obtain ⟨_, k, hk, hx⟩ := bind_ok.mp hx
  obtain ⟨hinside, hexit⟩ := inside_enterFunction (f := f) (g := g) hk
  have hend : ∀ {k' : Generator}, k'.Rooted → (do
      inScope (Gen.statements f.body.body)
      emitZero f.returns.valueType
      let g ← get
      modify fun g : Generator => { g with current := none }
      return (⟨symbolOf f.name, g.frame.size, g.code.toList⟩ : Routine)) k' = .ok r g' →
      ∃ h post, Gen.statements f.body.body k'.pushed = .ok () h ∧
        r.body = h.code.toList ++ post ∧ h.strings.toList <+: g'.strings.toList := by
    intro k' hr hx
    obtain ⟨_, u, hu, hx⟩ := bind_ok.mp hx
    have hscope : Continuing (inScope (Gen.statements f.body.body)) :=
      .of_shapes [] fun g => ⟨[], .inScope (shapes_statements _ _)⟩
    have hr := (hscope.run hr hu).1
    obtain ⟨_, _, ⟨⟩, hu⟩ := bind_ok.mp hu
    obtain ⟨_, h, hh, hu⟩ := bind_ok.mp hu
    cases hu
    obtain ⟨_, v, hv, hx⟩ := bind_ok.mp hx
    obtain ⟨-, c, hc⟩ := (continuing_emitZero _).run hr hv
    cases hx
    exact ⟨h, c, hh, hc.toList, hc.strings⟩
  dsimp only at hx
  split at hx
  · next hmain =>
    obtain ⟨_, k', hk', hx⟩ := bind_ok.mp hx
    obtain ⟨hin, hexit, -⟩ := run_topLevelStatements hinside hk'
    obtain ⟨h, post, hh, hbody⟩ := hend hin.rooted hx
    exact ⟨k, k', h, post, hk, hinside, by rwa [if_pos hmain], hin, hexit, hh, hbody⟩
  · next hmain =>
    obtain ⟨h, post, hh, hbody⟩ := hend hinside.rooted hx
    exact ⟨k, k, h, post, hk, hinside, by rw [if_neg hmain], hinside, hexit.trans hg, hh, hbody⟩

end

end Gen

namespace Site

variable {i : Part}

/-- Out of all loops, jumps from the site lead to the end of the function or, in a statement of
the top level, to the label right behind its code. -/
def Exits (x : i.Tree) : Site i → Generator → Generator → List Instruction → Prop
  | body _, h, _, _ => h.topLevelExit = none
  | topLevel _ _ spot, h, h', post => ∃ number u u' cell, housed cell (spot.fill x) u = .ok () u' ∧
    h.topLevelExit = some (.numbered .topEnd number) ∧
    ∃ inside behind after : List Instruction, h.code = u.code ++ inside ∧
      u'.code = h'.code ++ behind ∧
      post = behind ++ Instruction.label (.numbered .topEnd number) :: after

/-- In the making of a routine, which ends in a state, generation comes by the part at the
site. -/
structure Arrives (site : Site i) (x : i.Tree) (statements : List TopLevelStmt) (f : Function)
    (g : Generator) (r : Routine) (g' h h' : Generator) (post : List Instruction) : Prop
    extends Within f g.signatures h where
  lead : site.lead statements f g = .ok () h
  runs : Runs i x h h'
  body : r.body = h'.code.toList ++ post
  strings : h'.strings.toList <+: g'.strings.toList
  loops : site.Open → h.loops = []
  exits : site.Exits x h h' post

variable {x : i.Tree} {p : Program} {statements : List TopLevelStmt} {f : Function}
  {g g' k k' h : Generator} {r : Routine} {post : List Instruction}

theorem arrives_body (hx : i.Nameless x) (spot : Spot i (.body false))
    (hsite : (body spot).Holds x p f) (hk : enterFunction f g = .ok () k)
    (hstart : if f.name = "main" then topLevelStatements statements k = .ok () k' else k' = k)
    (hin : Inside f g.signatures k') (hexit : k'.topLevelExit = none)
    (hu : Gen.statements f.body.body k'.pushed = .ok () h)
    (hbody : r.body = h.code.toList ++ post) (hstrings : h.strings.toList <+: g'.strings.toList) :
    ∃ h h' post, (body spot).Arrives x statements f g r g' h h' post := by
  have hlead := run_enterBody hk hstart
  have hpushed := Reaches.pushed k'
  rw [show f.body.body = spot.fill x from hsite] at hu
  obtain ⟨h, h', c, ls, hspot, hc, hopen, hruns, d, hd⟩ :=
    spot.arrives hx (g := k'.pushed) hpushed.rooted hu
  have hreaches := hpushed.trans hc
  refine ⟨h, h', d ++ post, hin.toWithin.reaches hreaches, (bind_of_ok _ hlead).trans hspot,
    hruns, ?_, hd.strings.trans hstrings, fun ho => ?_, hreaches.topLevelExit.trans hexit⟩
  · rw [hbody, hd.toList, List.append_assoc]
  · rw [hreaches.loops, hopen ho, hin.loops]
    rfl

/-- To a statement of the top level lead those in front of it. -/
theorem lead_topLevel {before after : List Stmt} {spot : Spot i .statement}
    {front rest : List TopLevelStmt} {u : Generator} (hlength : front.length = before.length)
    (hk : enterFunction f g = .ok () k) (hfront : topLevelFront front k = .ok () k')
    (henter : enterTopLevel k' = .ok () u) (hspot : spot.lead u = .ok () h) :
    (topLevel before after spot).lead (front ++ rest) f g = .ok () h := by
  change (do
    enterFunction f
    topLevelFront ((front ++ rest).take before.length)
    enterTopLevel
    spot.lead) g = _
  rw [← hlength, List.take_left]
  exact (bind_of_ok _ hk).trans ((bind_of_ok _ hfront).trans ((bind_of_ok _ henter).trans hspot))

theorem arrives_topLevel (hx : i.Nameless x)
    (hstatements : statements.map (·.stmt) = p.topLevel) {before after : List Stmt}
    (spot : Spot i .statement) (hp : p.topLevel = before ++ spot.fill x :: after)
    (hk : enterFunction f g = .ok () k) (hinside : Inside f g.signatures k)
    (hstart : topLevelStatements statements k = .ok () k')
    (hu : Gen.statements f.body.body k'.pushed = .ok () h)
    (hbody : r.body = h.code.toList ++ post) (hstrings : h.strings.toList <+: g'.strings.toList) :
    ∃ h h' post, (topLevel before after spot).Arrives x statements f g r g' h h' post := by
  obtain ⟨front, t, rest, rfl, hfront, ht⟩ : ∃ front t rest, statements = front ++ t :: rest ∧
      front.length = before.length ∧ t.stmt = spot.fill x := by
    rw [← hstatements] at hp
    obtain ⟨front, behind, rfl, hfront, hbehind⟩ := List.map_eq_append_iff.mp hp
    obtain ⟨t, rest, rfl, ht, -⟩ := List.map_eq_cons_iff.mp hbehind
    exact ⟨front, t, rest, rfl, by rw [← hfront, List.length_map], ht⟩
  obtain ⟨v, u₁, u₂, after', hv, hu₁, hu₂, hvin, hu₁in, hexits, hcode⟩ :=
    run_topLevelPart hinside hstart hu
  rw [ht] at hu₂
  obtain ⟨h, h', c, ls, hspot, hc, hopen, hruns, d, hd⟩ :=
    spot.arrives hx hu₁in.rooted ⟨t.cell, hu₂⟩
  refine ⟨h, h', d ++ Instruction.label (.numbered .topEnd (v.labels + 1)) :: (after' ++ post),
    hu₁in.toWithin.reaches hc, ?_, hruns, ?_, hd.strings.trans (hcode.strings.trans hstrings),
    fun ho => ?_,
    ⟨_, u₁, u₂, t.cell, hu₂, hc.topLevelExit.trans hexits, c, d, _, hc.code, hd.code, rfl⟩⟩
  · exact lead_topLevel hfront hk hv hu₁ hspot
  · rw [hbody, hcode.toList, hd.toList]
    simp
  · rw [hc.loops, hopen ho, hu₁in.loops]
    rfl

theorem arrives (hx : i.Nameless x) (hstatements : statements.map (·.stmt) = p.topLevel)
    (site : Site i) (hsite : site.Holds x p f) (hg : g.topLevelExit = none)
    (hrun : Gen.function statements f g = .ok r g') :
    ∃ h h' post, site.Arrives x statements f g r g' h h' post := by
  obtain ⟨k, k', u, post, hk, hinside, hstart, hin, hexit, hu, hbody, hstrings⟩ :=
    run_function hg hrun
  cases site with
  | body spot => exact arrives_body hx spot hsite hk hstart hin hexit hu hbody hstrings
  | topLevel before after spot =>
    obtain ⟨hmain, hp⟩ := hsite
    rw [if_pos hmain] at hstart
    exact arrives_topLevel hx hstatements spot hp hk hinside hstart hu hbody hstrings

end Site

/-! ## Programs -/

namespace Gen

/-- The functions that count are known by their symbols. -/
def Knowing (p : Program) (g : Generator) : Prop :=
  ∀ f ∈ lastOfName p.functions, g.signatures.find? f.name = some ⟨symbolOf f.name, f⟩

theorem Knowing.congr {p : Program} {g g' : Generator} (h : Knowing p g)
    (hs : g'.signatures = g.signatures) : Knowing p g' := fun f hf => by
  rw [hs]
  exact h f hf

theorem knowing_register {p : Program} {ts : List TopLevelStmt} {g : Generator}
    (h : register p .new = .ok ts g) : Knowing p g := by
  obtain ⟨-, -, rfl⟩ := register_ok h
  exact fun f hf => find?_signed hf

/-- A function of a program is generated, in a state where the functions that count are known. -/
structure Generates (p : Program) (ts : List TopLevelStmt) (f : Function) (g : Generator)
    (r : Routine) : Prop where
  topLevel : ts.map (·.stmt) = p.topLevel
  knowing : Knowing p g
  run : ∃ g', function ts f g = .ok r g'
  outside : g.topLevelExit = none
  symbol : r.symbol = symbolOf f.name
  steady : Steady r
  laidOut : ∃ as, r.LaidOut as

/-- Each of the functions is generated, from a state with a property that all keep. -/
theorem Routines.generates {p : Generator → Prop} {ts : List TopLevelStmt} {fs : List Function}
    {rs : List Routine} {g g' : Generator} (h : Routines ts g fs rs g')
    (hp : ∀ {r g returns t}, MadeFrom (cellsOf ts) r g returns t → p g → p (behind t))
    (hg : p g) {f : Function} (hf : f ∈ fs) :
    ∃ r ∈ rs, ∃ g₁ t, p g₁ ∧ function ts f g₁ = .ok r (behind t) ∧ r.symbol = symbolOf f.name ∧
      MadeFrom (cellsOf ts) r g₁ f.returns t ∧
      (behind t).strings.toList <+: g'.strings.toList := by
  induction h with
  | nil => cases hf
  | @cons g _ f' _ r _ t hrun hsymbol hm hrest ih =>
    rcases List.mem_cons.mp hf with rfl | hf
    · exact ⟨r, List.mem_cons_self, g, t, hg, hrun, hsymbol, hm, hrest.pools.2.1⟩
    · obtain ⟨r', hr', hmade⟩ := ih (hp hm hg) hf
      exact ⟨r', List.mem_cons_of_mem _ hr', hmade⟩

end Gen

/-- Every function that counts is generated for the listing, where no label is placed twice. The
strings it needs are in the pool of the listing. -/
theorem Program.generates_of_compile {p : Program} {c : Compiled} (h : p.compile = .ok c) :
    (c.listing.routines.flatMap (placed ·.code)).Nodup ∧
      ∃ ts, ∀ f ∈ lastOfName p.functions, ∃ r ∈ c.listing.routines, ∃ g, Generates p ts f g r ∧
        ∃ g', function ts f g = .ok r g' ∧ g'.strings.toList <+: c.listing.strings := by
  obtain ⟨g', hg⟩ := generated_of_compile h
  obtain ⟨ts, g, hregister, hg⟩ := bind_ok.mp hg
  obtain ⟨rs, g₁, hrs, hg⟩ := bind_ok.mp hg
  obtain ⟨_, _, ⟨⟩, hg⟩ := bind_ok.mp hg
  obtain ⟨hlisting, -⟩ := pure_ok.mp hg
  rw [hlisting]
  have hregistered := registered_register hregister
  have hroutines := routines_functions hregistered.topLevelExit hrs
  refine ⟨(hroutines.placed (nodup_lastOfName _)).1, ts, fun f hf => ?_⟩
  obtain ⟨r, hr, g₂, t, ⟨hknowing, hcelled⟩, hrun, hsymbol, hm, hstrings⟩ := hroutines.generates
    (p := fun g => Knowing p g ∧ Celled (cellsOf ts) g)
    (fun hm hp => ⟨hp.1.congr hm.before.signatures, hp.2.behind hm⟩)
    ⟨knowing_register hregister, hregistered.globals⟩ hf
  exact ⟨r, hr, g₂, ⟨hregistered.stmts, hknowing, ⟨_, hrun⟩, hm.outside, hsymbol,
    hm.steady, _, hm.laidOut (outside_cellsOf hregistered) hcelled⟩, _, hrun, hstrings⟩

end ScriptLang
