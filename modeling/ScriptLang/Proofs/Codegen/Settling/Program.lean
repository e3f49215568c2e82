import ScriptLang.Proofs.Codegen.Layout
import ScriptLang.Proofs.Codegen.Settling.Statement

/-!
# Settled programs read what they wrote

A function starts where nothing was run and its parameters get their values. Globals are
no part of the frame. Jumps out of the body lead to its end and to handlers, of which
neither reads the frame.
-/

namespace ScriptLang

open Assembly

/-- Every function uses only names that every path to them has bound. -/
def Program.Settled (p : Program) : Prop :=
  ∀ f ∈ lastOfName p.functions,
    (f.settle (p.topLevel.filterMap Gen.declared?) p.topLevel).isSome = true

instance (p : Program) : Decidable p.Settled :=
  inferInstanceAs (Decidable (∀ f ∈ lastOfName p.functions,
    (f.settle (p.topLevel.filterMap Gen.declared?) p.topLevel).isSome = true))

variable {k k' k'' : Bindings} {first : Nat} {g g₀ g' : Generator} {I O : Set Instruction}

/-! ## Globals -/

/-- The value is no part of the frame. -/
def Slot.Aside (s : Slot) : Prop := ∃ name, s.location = .cell name

theorem Slot.Aside.filled {s : Slot} (h : s.Aside) : s.Filled g I := by
  obtain ⟨name, hl⟩ := h
  intro m hm hf
  cases m with
  | frame n => exact absurd rfl (Slot.part_cell hm hl n)
  | _ => cases hf

namespace Generator

/-- Where a global name means another cell. -/
def rebinding (g : Generator) (name : String) (cell : Slot) : Generator :=
  { g with globals := g.globals.insert name cell }

theorem find?_rebinding_cases {name other : String} {cell slot : Slot}
    (h : (g.rebinding name cell).find? other = some slot) :
    slot = cell ∨ g.find? other = some slot := by
  rw [Generator.find?] at h ⊢
  rcases Option.or_eq_some_iff.mp h with hframe | ⟨hframe, hglobal⟩
  · exact .inr (Option.or_eq_some_iff.mpr (.inl hframe))
  · rw [show (g.rebinding name cell).globals = g.globals.insert name cell from rfl,
      NameMap.find?_insert] at hglobal
    split at hglobal
    · cases hglobal
      exact .inl rfl
    · exact .inr (Option.or_eq_some_iff.mpr (.inr ⟨hframe, hglobal⟩))

theorem isSome_find?_rebinding {name other : String} {cell : Slot}
    (h : (g.find? other).isSome = true) :
    ((g.rebinding name cell).find? other).isSome = true := by
  rw [Generator.find?, Option.isSome_or, Bool.or_eq_true] at h ⊢
  refine h.imp_right fun h => ?_
  rw [show (g.rebinding name cell).globals = g.globals.insert name cell from rfl,
    NameMap.find?_insert]
  split
  · rfl
  · exact h

end Generator

theorem Ready.rebinding (h : Ready k g I) (name : String) {cell : Slot} (hc : cell.Aside) :
    Ready k (g.rebinding name cell) I where
  rooted := h.rooted
  orderly := h.orderly
  bound := fun other ho => Generator.isSome_find?_rebinding (h.bound other ho)
  settled := fun other ho slot hslot => by
    rcases Generator.find?_rebinding_cases hslot with rfl | hslot
    · exact hc.filled
    · exact h.settled other ho slot hslot

/-! ## Functions in the making -/

/-- Out of loops, jumps lead to the end of a statement of the top level or out of the body. -/
theorem exit_cases (hg : g.loops = []) {l : Label} (h : g.Exit l) :
    g.topLevelExit = some l ∨ ∀ mark n, l ≠ .numbered mark n := by
  cases h with
  | again hloop | done hloop => cases hg.symm.trans hloop
  | topLevel hexit => exact .inl hexit
  | epilogue => exact .inr fun _ _ => Label.noConfusion
  | trap => exact .inr fun _ _ => Label.noConfusion

/-- The body of a function is made up to here. What it reads is initialised, and `I` is run
on every way to its end. Its labels have numbers above `first`. -/
structure Underway (k : Bindings) (first : Nat) (g : Generator) (I : Set Instruction) : Prop where
  ready : Ready k g I
  loops : g.loops = []
  labels : first ≤ g.labels
  flow : ∃ j, ∀ J, Coincides J j first g.labels → Unmarked J → ∀ all, g.code.toList <+: all →
    Flows all J ∅ g.code.toList I

namespace Underway

/-- More of the body is made, from a state that differs in the labels that are said to be
given by `s`, and in where jumps lead. -/
theorem step {P : (Label → Set Instruction) → Prop} {s : Label → Set Instruction}
    {c : List Instruction} (h : Underway k first g I) (hp : Passes P k' k'' g₀ g' I c O)
    (hc : g₀.code = g.code) (hl : g.labels ≤ g₀.labels) (hloops : g₀.loops = [])
    (hP : ∀ J, Coincides J s g.labels g₀.labels → Unmarked J →
      P J ∧ (k''.jumped = true → ∀ l, g₀.Exit l → J l ⊆ I)) :
    Underway k'' first g' O where
  ready := hp.ready
  loops := hp.kept.loops.trans hloops
  labels := Nat.le_trans h.labels (Nat.le_trans hl hp.labels)
  flow := by
    obtain ⟨j, hj⟩ := h.flow
    obtain ⟨j', hj'⟩ := hp.flow
    refine ⟨splice g.labels j (splice g₀.labels s j'), fun J hJ hU all hall => ?_⟩
    obtain ⟨hfront, hbehind⟩ := hJ.of_splice h.labels (Nat.le_trans hl hp.labels)
    obtain ⟨hown, hpart⟩ := hbehind.of_splice hl hp.labels
    obtain ⟨hsaid, hexits⟩ := hP J hown hU
    have hcode : g'.code.toList = g.code.toList ++ c := by
      rw [hp.code, Array.toList_appendList, hc]
    have hbefore := hj J hfront hU all ((hcode ▸ List.prefix_append _ _).trans hall)
    rw [hcode]
    exact hbefore.append fun hI =>
      (hj' J hsaid hpart ⟨hU, hexits⟩ all hall).weaken hI subset_rfl

/-- Where jumps lead out of the body only. -/
theorem passes {c : List Instruction} (h : Underway k first g I)
    (hp : Passes (fun _ => True) k k' g g' I c O) (he : g.topLevelExit = none) :
    Underway k' first g' O := by
  refine h.step (s := fun _ => ∅) hp rfl (Nat.le_refl _) h.loops fun J _ hU =>
    ⟨trivial, fun _ l hl => ?_⟩
  rcases exit_cases h.loops hl with hexit | hout
  · cases he.symm.trans hexit
  · rw [hU l hout]
    exact Set.empty_subset _

/-- Code is generated outside of statements of the top level. -/
theorem settled {α : Type} {x : Gen α} (h : Underway k first g I) (he : g.topLevelExit = none)
    (hx : Gen.Settled k k' x g I) {a : α} (ha : x g = .ok a g') :
    ∃ O, Underway k' first g' O ∧ g'.topLevelExit = none := by
  obtain ⟨c, O, hp, -⟩ := hx h.ready a g' ha
  exact ⟨O, h.passes hp he, hp.kept.topLevelExit.trans he⟩

theorem rebinding (h : Underway k first g I) (name : String) {cell : Slot} (hc : cell.Aside) :
    Underway k first (g.rebinding name cell) I where
  ready := h.ready.rebinding name hc
  loops := h.loops
  labels := h.labels
  flow := h.flow

theorem exiting (h : Underway k first g I) (exit : Option Label) :
    Underway k first { g with topLevelExit := exit } I where
  ready := h.ready.mono h.ready.rooted h.ready.orderly (fun _ => rfl) List.prefix_rfl subset_rfl
  loops := h.loops
  labels := h.labels
  flow := h.flow

end Underway

namespace Gen

/-! ## Parameters -/

theorem length_assign (rs : List Register) (xs : List FloatRegister) (n : Nat)
    (types : List ValueType) : (Passage.assign rs xs n types).length = types.length := by
  induction rs, xs, n, types using Passage.assign.induct <;> simp_all [Passage.assign]

theorem valueType_ne_range (type : DeclaredType) : type.valueType ≠ .range := by
  cases type <;> simp [DeclaredType.valueType]

/-- A parameter is given what the caller passed. -/
theorem settled_receive {name : String} {slot : Slot} (ht : slot.type ≠ .range)
    (hs : slot.Blank g) (hn : g.find? name = some slot) (p : Passage) :
    Settled k (k.fill name) (emit (p.receive slot)) g I := by
  cases p with
  | register r =>
    exact (settles_fillNamed hs hn (Slot.filledBy_store ht rfl ⟨rfl, rfl, rfl, rfl⟩)).settled
  | float x =>
    exact (settles_fillNamed hs hn (Slot.filledBy_store ht rfl ⟨rfl, rfl, rfl, rfl⟩)).settled
  | stack i =>
    have hload : ∀ i' ∈ [Instruction.move (.memory (.frame (16 + 8 * i))) (.register .rax)],
        Proper g I i' := by
      have hout : ¬(16 + 8 * (i : Int) < 0) := by omega
      exact proper_straight rfl (List.forall_mem_singleton.mpr fun hframe => absurd hframe hout)
    change Settled k _ (emit ([_] ++ [_])) g I
    rw [emit_append]
    refine (settles_inert hload rfl).bind fun _ g₁ M hx _ hspare => ?_
    have hfind : g₁.find? name = some slot := by
      cases hx
      exact hn
    exact (settles_fillNamed (hspare slot hs) hfind
      (Slot.filledBy_store ht rfl ⟨rfl, rfl, rfl, rfl⟩)).settled

theorem settled_receiveParameters : ∀ (ps : List Parameter) (passages : List Passage),
    passages.length = ps.length → ∀ (k : Bindings) (g : Generator) (I : Set Instruction),
    Settled k (ps.foldl (·.declare ·.name) k) (receiveParameters ps passages) g I
  | [], _, _, _, _, _ => .pure trivial
  | p :: ps, passage :: passages, hlength, k, g, I => by
    refine (settles_declare p.name p.type.valueType true).bind fun slot g₁ M _ _ hs => ?_
    have hrange : slot.type ≠ .range := by
      rw [hs.1]
      exact valueType_ne_range p.type
    refine (settled_receive hrange hs.2.1 hs.2.2 passage).andThen fun _ g₂ O => ?_
    exact settled_receiveParameters ps passages (Nat.succ.inj hlength) _ g₂ O

/-! ## Statements of the top level -/

section

variable {α β : Type} {name : String} {cell : Slot} {x : Gen α} {f : α → Gen β}

/-- The same is generated where a global name means another cell. -/
def Overlooks (name : String) (cell : Slot) (x : Gen α) : Prop :=
  ∀ g a g', x (g.rebinding name cell) = .ok a g' →
    ∃ g₁, x g = .ok a g₁ ∧ g' = g₁.rebinding name cell

theorem Overlooks.bind (hx : Overlooks name cell x) (hf : ∀ a, Overlooks name cell (f a)) :
    Overlooks name cell (x >>= f) := by
  intro g b g'' h
  obtain ⟨a, _, ha, hb⟩ := bind_ok.mp h
  obtain ⟨g₁, hx, rfl⟩ := hx g a _ ha
  obtain ⟨g₂, hf, rfl⟩ := hf a g₁ b _ hb
  exact ⟨g₂, (bind_of_ok f hx).trans hf, rfl⟩

theorem overlooks_emit (c : List Instruction) : Overlooks name cell (emit c) := by
  rintro g _ _ ⟨⟩
  exact ⟨_, rfl, rfl⟩

theorem overlooks_internString (text : String) : Overlooks name cell (internString text) := by
  intro g l g' h
  obtain ⟨_, _, ⟨⟩, h⟩ := bind_ok.mp h
  have hget : (get : Gen Generator) g = .ok g g := rfl
  rw [internString, bind_of_ok _ hget]
  dsimp only [Generator.rebinding] at h ⊢
  cases hs : g.strings.idxOf? text with
  | some i =>
    rw [hs] at h
    cases h
    exact ⟨g, rfl, rfl⟩
  | none =>
    rw [hs] at h
    cases h
    exact ⟨_, rfl, rfl⟩

theorem overlooks_emitZero (type : ValueType) : Overlooks name cell (emitZero type) := by
  cases type with
  | string => exact (overlooks_internString "").bind fun _ => overlooks_emit _
  | _ => exact overlooks_emit _

theorem overlooks_emitCoercion (source target : ValueType) (position : Position) :
    Overlooks name cell (emitCoercion source target position) := by
  unfold emitCoercion
  split
  · rintro g _ _ ⟨⟩
    exact ⟨g, rfl, rfl⟩
  · split
    · exact overlooks_emit _
    · exact overlooks_emit _
    · refine Overlooks.bind ?_ fun _ => overlooks_emitZero target
      rintro g _ _ ⟨⟩
      exact ⟨_, rfl, rfl⟩

end

/-- The first value of a variable is stored. -/
def storeInitial (slot : Slot) (value : Option ValueType) (position : Position) : Gen Unit := do
  match value with
  | some v => emitCoercion v slot.type position
  | none => emitZero slot.type
  emit slot.storeCode

theorem overlooks_storeInitial {name : String} {cell : Slot} (slot : Slot)
    (value : Option ValueType) (position : Position) :
    Overlooks name cell (storeInitial slot value position) := by
  cases value with
  | some v => exact (overlooks_emitCoercion v slot.type position).bind fun _ => overlooks_emit _
  | none => exact (overlooks_emitZero slot.type).bind fun _ => overlooks_emit _

theorem settled_storeInitial {slot : Slot} (h : slot.Aside) (value : Option ValueType)
    (position : Position) : Settled k k (storeInitial slot value position) g I := by
  cases value with
  | some v => exact settled_storeCoerced h.filled v slot.type position
  | none =>
    exact (settles_emitZero slot.type).andThen fun _ _ _ => settled_emit (proper_storeCode h.filled)

/-- What a statement of the top level does in front of its end. The name that it declares
means there what it meant before. -/
def topLevelCode (t : TopLevelStmt) : Gen Unit :=
  match t.stmt, t.cell with
  | .declare _ _ _ value span, some cell => do
    storeInitial cell (← option value) span.start
  | s, _ => statement s

theorem settled_topLevelCode {t : TopLevelStmt} (hh : Housed t) (hc : ∀ cell ∈ t.cell, cell.Aside)
    (hk : t.stmt.settleHoused k = some k') : Settled k k' (topLevelCode t) g I := by
  obtain ⟨stmt, cell⟩ := t
  cases stmt with
  | declare name constant type value span =>
    obtain ⟨cell, rfl⟩ := Option.isSome_iff_exists.mp (hh rfl)
    exact (settled_option value hk g I).andThen fun _ _ _ =>
      settled_storeInitial (hc cell rfl) _ _
  | _ => exact settled_statement _ hk g I

/-- The label at the end of the next statement of the top level. -/
def topEnd (g : Generator) : Label := .numbered .topEnd (g.labels + 1)

/-- A declaration makes its name mean its cell when its value is stored. -/
theorem run_topLevelStatement {t : TopLevelStmt} (h : topLevelStatement t g = .ok () g') :
    ∃ g₁, topLevelCode t { g.numbered with topLevelExit := some (topEnd g) } = .ok () g₁ ∧
      (g' = g₁.emitting [.label (topEnd g)] ∨ ∃ name, ∃ cell ∈ t.cell,
        g' = (g₁.emitting [.label (topEnd g)]).rebinding name cell) := by
  obtain ⟨stmt, cell⟩ := t
  obtain ⟨_, _, ⟨⟩, h⟩ := bind_ok.mp h
  obtain ⟨_, _, ⟨⟩, h⟩ := bind_ok.mp h
  have hplain : (do
      statement stmt
      emit [.label (topEnd g)]) { g.numbered with topLevelExit := some (topEnd g) } =
        .ok () g' → ∃ g₁,
      statement stmt { g.numbered with topLevelExit := some (topEnd g) } = .ok () g₁ ∧
      g' = g₁.emitting [.label (topEnd g)] := by
    intro h
    obtain ⟨_, g₁, hx, ⟨⟩⟩ := bind_ok.mp h
    exact ⟨g₁, hx, rfl⟩
  cases stmt with
  | declare name constant type value span =>
    cases cell with
    | none =>
      obtain ⟨g₁, hx, hend⟩ := hplain h
      exact ⟨g₁, hx, .inl hend⟩
    | some cell =>
      obtain ⟨v, g₁, hv, h⟩ := bind_ok.mp h
      obtain ⟨_, g₂, hx, ⟨⟩⟩ := bind_ok.mp h
      obtain ⟨g₃, hx', rfl⟩ := overlooks_storeInitial cell v span.start g₁ () g₂ hx
      exact ⟨g₃, (bind_of_ok _ hv).trans hx', .inr ⟨name, cell, rfl, rfl⟩⟩
  | _ =>
    obtain ⟨g₁, hx, hend⟩ := hplain h
    exact ⟨g₁, hx, .inl hend⟩

/-- Jumps in a statement of the top level lead to its end. -/
theorem underway_topLevelStatement {t : TopLevelStmt} (h : Underway k first g I)
    (hh : Housed t) (hc : ∀ cell ∈ t.cell, cell.Aside)
    (hk : t.stmt.settleOutside k = some k') (hx : topLevelStatement t g = .ok () g') :
    ∃ O, Underway k' first g' O := by
  obtain ⟨k₁, hstmt, rfl⟩ := Option.map_eq_some_iff.mp hk
  obtain ⟨g₁, hx, hend⟩ := run_topLevelStatement hx
  let start : Generator := { g.numbered with topLevelExit := some (topEnd g) }
  have hstart : Ready k.unjumped start I :=
    (h.exiting (some (topEnd g))).ready.numbered.congr rfl rfl
  obtain ⟨c, M, hp, -⟩ := settled_topLevelCode hh hc hstmt hstart () g₁ hx
  let T := if k₁.jumped = true then I else M
  have hjoin : Passes (fun J => J (topEnd g) = T) k.unjumped (k.unjumped.joining k₁) start
      (g₁.emitting [.label (topEnd g)]) I _ T :=
    (hp.weaken fun _ _ => trivial).join hstart fun _ hJ => hJ
  have hafter : Underway (k.unjumped.joining k₁) first (g₁.emitting [.label (topEnd g)]) T := by
    refine h.step (s := fun _ => T) hjoin rfl (Nat.le_succ _) h.loops fun J hJ hU => ?_
    have hT : J (topEnd g) = T := hJ _ _ (Nat.lt_succ_self _) (Nat.le_refl _)
    refine ⟨hT, fun hjumped l hl => ?_⟩
    have hj : k₁.jumped = true := by
      unfold Bindings.joining at hjumped
      split at hjumped
      · assumption
      · exact hjumped
    rcases exit_cases (g := start) h.loops hl with hexit | hout
    · cases hexit
      rw [hT]
      exact (if_pos hj).subset
    · rw [hU l hout]
      exact Set.empty_subset _
  rcases hend with rfl | ⟨name, cell, hcell, rfl⟩
  · exact ⟨T, hafter⟩
  · exact ⟨T, hafter.rebinding name (hc cell hcell)⟩

theorem underway_topLevelStatements : ∀ {ts : List TopLevelStmt} {k k' : Bindings}
    {g g' : Generator} {I : Set Instruction}, Underway k first g I → (∀ t ∈ ts, Housed t) →
    (∀ t ∈ ts, ∀ cell ∈ t.cell, cell.Aside) →
    Stmt.settleAllOutside (ts.map (·.stmt)) k = some k' → topLevelStatements ts g = .ok () g' →
    ∃ O, Underway k' first g' O ∧ g'.topLevelExit = none
  | [], _, _, _, _, I, h, _, _, hk, hx => by
    cases hk
    cases hx
    exact ⟨I, h.exiting none, rfl⟩
  | t :: ts, _, _, _, _, _, h, hh, hc, hk, hx => by
    obtain ⟨hht, hh⟩ := List.forall_mem_cons.mp hh
    obtain ⟨hct, hc⟩ := List.forall_mem_cons.mp hc
    obtain ⟨_, hkt, hk⟩ := Option.bind_eq_some_iff.mp hk
    obtain ⟨_, g₁, hxt, hx⟩ := bind_ok.mp hx
    obtain ⟨O, h⟩ := underway_topLevelStatement h hht hct hkt hxt
    exact underway_topLevelStatements h hh hc hk hx

/-! ## Whole functions -/

/-- What is known between functions: all globals are, and they are no part of a frame. -/
structure Grounded (names : List String) (cells : List Slot) (g : Generator) : Prop where
  celled : Celled cells g
  known : ∀ name ∈ names, (g.globals.find? name).isSome = true

theorem Grounded.behind {names : List String} {cells : List Slot} {r : Routine} {g : Generator}
    {returns : DeclaredType} {t : Stage} (hm : MadeFrom cells r g returns t)
    (h : Grounded names cells g) : Grounded names cells (Gen.behind t) :=
  ⟨h.celled.behind hm, fun name hn => hm.made.keepsGlobal (h.known name hn)⟩

/-- Where a function starts, nothing was run. -/
theorem Grounded.underway {names : List String} {cells : List Slot} (h : Grounded names cells g)
    (hc : Stage.Outside cells) (current : CurrentFunction) :
    Underway ⟨names, [], [], false⟩ g.labels (entry g current).generator ∅ where
  ready :=
    { rooted := List.cons_ne_nil _ _
      orderly := ⟨List.forall_mem_nil _, List.forall_mem_nil _⟩
      bound := h.known
      settled := fun name _ slot hslot => Slot.Aside.filled (hc slot (h.celled name slot hslot)) }
  loops := rfl
  labels := Nat.le_refl _
  flow := ⟨fun _ => ∅, fun _ _ _ _ _ => subset_rfl⟩

/-- The body of a settled function initialises what it reads. -/
theorem underway_function {topLevel : List TopLevelStmt} {names : List String} {f : Function}
    {r : Routine} {g g' : Generator} (h : Grounded names (cellsOf topLevel) g)
    (hc : Stage.Outside (cellsOf topLevel)) (hh : ∀ t ∈ topLevel, Housed t)
    (he : g.topLevelExit = none) (hk : (f.settle names (topLevel.map (·.stmt))).isSome = true)
    (hx : function topLevel f g = .ok r g') :
    ∃ k g₁ I, Underway k g.labels g₁ I ∧ r.body = g₁.code.toList := by
  have haside : ∀ t ∈ topLevel, ∀ cell ∈ t.cell, cell.Aside := fun t ht cell hcell =>
    hc cell (List.mem_filterMap.mpr ⟨t, ht, hcell⟩)
  obtain ⟨k, hk⟩ := Option.isSome_iff_exists.mp hk
  obtain ⟨k₁, hmain, hbody⟩ := Option.bind_eq_some_iff.mp hk
  have hstart := h.underway hc ⟨symbolOf f.name, f.returns⟩
  obtain ⟨_, _, ⟨⟩, hx⟩ := bind_ok.mp hx
  obtain ⟨_, g₁, hreceive, hx⟩ := bind_ok.mp hx
  have hlength : (Passage.ofTypes (f.parameters.map (·.type.valueType))).length =
      f.parameters.length := by
    rw [Passage.ofTypes, length_assign, List.length_map]
  obtain ⟨I, h₁, he₁⟩ := hstart.settled he
    (settled_receiveParameters f.parameters _ hlength _ _ _) hreceive
  -- The body stands behind the statements of the top level, or behind the parameters.
  have hend : ∀ {g₂ : Generator} {M : Set Instruction}, Underway k₁ g.labels g₂ M →
      g₂.topLevelExit = none → (do
        inScope (statements f.body.body)
        emitZero f.returns.valueType
        let g ← get
        modify fun g : Generator => { g with current := none }
        return (⟨symbolOf f.name, g.frame.size, g.code.toList⟩ : Routine)) g₂ = .ok r g' →
      ∃ k g₁ I, Underway k g.labels g₁ I ∧ r.body = g₁.code.toList := by
    intro g₂ M h₂ he₂ hx
    obtain ⟨_, g₃, hscope, hx⟩ := bind_ok.mp hx
    obtain ⟨_, g₄, hzero, hx⟩ := bind_ok.mp hx
    obtain ⟨N, h₃, he₃⟩ := h₂.settled he₂
      (Settles.inScope (settled_statements f.body.body hbody g₂.pushed M)) hscope
    obtain ⟨O, h₄, -⟩ := h₃.settled he₃ (settles_emitZero f.returns.valueType).settled hzero
    cases hx
    exact ⟨_, g₄, O, h₄, rfl⟩
  dsimp only at hx
  split at hx
  · next hname =>
    rw [Function.settleHead, if_pos hname] at hmain
    obtain ⟨_, g₂, htop, hx⟩ := bind_ok.mp hx
    obtain ⟨M, h₂, he₂⟩ := underway_topLevelStatements h₁ hh haside hmain htop
    exact hend h₂ he₂ hx
  · next hname =>
    rw [Function.settleHead, if_neg hname] at hmain
    cases hmain
    exact hend h₁ he₁ hx

/-- A name that means nothing is reported. From there on it means a slot that is made zero. -/
structure Zeroed (name : String) (position : Position) (g : Generator) (slot : Slot)
    (g' : Generator) : Prop where
  reported : g'.diagnostics = g.diagnostics ++ [⟨.variableNotDeclared name, position⟩]
  code : g'.code = g.code ++ [Instruction.move (.immediate 0) (.memory slot.low)]
  bound : g'.find? name = some slot
  parts : slot.parts = [slot.low]

theorem zeroed_resolve {name : String} (hr : g.Rooted) (hn : g.find? name = none)
    (position : Position) : ∃ slot g', resolve name position g = .ok slot g' ∧
      Zeroed name position g slot g' := by
  let reported : Generator :=
    { g with diagnostics := g.diagnostics ++ [⟨.variableNotDeclared name, position⟩] }
  obtain ⟨slot, g₁, hx, -, hdiagnostics, -⟩ :=
    grows_declare (g := reported) hr name .integer true
  have hd := declared_declare (g := reported) hr hx
  have hget : (get : Gen Generator) g = .ok g g := rfl
  have hreport : report (.variableNotDeclared name) position g = .ok () reported := rfl
  refine ⟨slot, g₁.emitting [.move (.immediate 0) (.memory slot.low)], ?_, hdiagnostics, ?_,
    (hd.find? name).trans (if_pos rfl), ?_⟩
  · rw [resolve, bind_of_ok _ hget, hn]
    exact (bind_of_ok _ hreport).trans (bind_of_ok _ hx)
  · rw [Generator.emitting, hd.code]
  · rw [Slot.parts, if_neg (by simp [hd.type])]

end Gen

/-! ## Paths through functions -/

section

variable (r : Routine) (m : Memory)

theorem firstStore?_code : firstStore? m r.code = firstStore? m (r.body ++ r.epilogue) := by
  have hfirst : firstStore? m r.prologue = none := by
    rw [firstStore?_eq_none, Routine.prologue]
    split <;> simp
  rw [Routine.code, List.append_assoc, firstStore?_append, hfirst]
  rfl

end

namespace Underway

variable {r : Routine}

/-- The whole code of a function initialises what it reads. -/
theorem flow_code (h : Underway k first g I) (hr : r.body = g.code.toList) :
    ∃ J, Flows r.code J ∅ r.code Set.univ := by
  obtain ⟨j, hj⟩ := h.flow
  let J := splice 0 (fun _ => ∅) j
  have hJ : Coincides J j first g.labels := fun mark n hn _ => if_neg (by omega)
  have hU : Unmarked J := by
    intro l hl
    cases l with
    | numbered mark n => exact absurd rfl (hl mark n)
    | _ => rfl
  have hstart : J (.symbol r.symbol) = ∅ := rfl
  have hend : J (.epilogue r.symbol) = ∅ := rfl
  have hprologue : Flows r.code J ∅ r.prologue ∅ := by
    unfold Routine.prologue
    split <;> simp [Flows, Instruction.after, hstart]
  have hbody : Flows r.code J ∅ r.body I := by
    rw [hr]
    refine (hj J hJ hU (r.body ++ r.epilogue) ?_).congr (firstStore?_code r)
    rw [hr]
    exact List.prefix_append _ _
  have hepilogue : Flows r.code J I r.epilogue Set.univ := by
    simp [Routine.epilogue, Flows, Instruction.after, hend]
  refine ⟨J, ?_⟩
  have hflow : Flows r.code J ∅ (r.prologue ++ r.body ++ r.epilogue) Set.univ :=
    (hprologue.append fun hM => hbody.weaken hM subset_rfl).append fun hM =>
      hepilogue.weaken hM subset_rfl
  exact hflow

/-- What a function makes zero it does not write before. -/
theorem zeroed (h : Underway k first g I) (hr : r.body = g.code.toList) {m : Memory}
    (hm : m.InFrame) (hz : .move (.immediate 0) (.memory m) ∈ r.code) :
    firstStore? m r.code = some (.move (.immediate 0) (.memory m)) := by
  have hbody := memories_code r hz (List.cons_ne_nil m [])
  rw [hr] at hbody
  rw [firstStore?_code, hr]
  exact firstStore?_of_prefix (h.ready.orderly.zeroed _ hbody m hm rfl) (List.prefix_append _ _)

end Underway

/-- On every path through a function of a settled program, what is read from the frame was
written before. If it is the slot of a name that was not declared, it was made zero. -/
theorem Program.Settled.initialises {p : Program} (h : p.Settled) {c : Compiled}
    (hc : p.compile = .ok c) {r : Routine} (hr : r ∈ c.listing.routines) :
    (∀ {trace n i m}, Course r.code trace n → r.code[n]? = some i → m ∈ i.loads → m.InFrame →
      ∃ s ∈ trace, m ∈ s.stores ∧ (.move (.immediate 0) (.memory m) ∈ r.code →
        s = .move (.immediate 0) (.memory m))) ∧
    ∀ name position g, g.Rooted → g.find? name = none → ∃ slot g',
      Gen.resolve name position g = .ok slot g' ∧ Gen.Zeroed name position g slot g' := by
  obtain ⟨_, hg⟩ := generated_of_compile hc
  obtain ⟨topLevel, g, hregistered, hroutines, -⟩ := Gen.routines_program hg
  obtain ⟨f, hf, g₁, t, hgrounded, hrun, hmade, -⟩ := hroutines.made
    (p := Gen.Grounded (p.topLevel.filterMap Gen.declared?) (Gen.cellsOf topLevel))
    (fun hm hp => hp.behind hm) ⟨hregistered.globals, hregistered.declared⟩ hr
  have hsettle := h f hf
  rw [← hregistered.stmts] at hsettle hgrounded
  obtain ⟨k, g₂, I, hbody, hcode⟩ := Gen.underway_function hgrounded
    (Gen.outside_cellsOf hregistered) hregistered.housed hmade.outside hsettle hrun
  obtain ⟨J, hflow⟩ := hbody.flow_code hcode
  refine ⟨fun {trace n i m} hp hi hm hframe => ?_, fun name position g hg hn =>
    Gen.zeroed_resolve hg hn position⟩
  obtain ⟨s, hs, hfirst⟩ := hflow.initialised hp hi hm hframe
  refine ⟨s, hs, (mem_of_firstStore? hfirst).2, fun hz => ?_⟩
  exact Option.some.inj (hfirst.symm.trans (hbody.zeroed hcode hframe hz))

/-- A name that was not declared is read in front of a branch, and again in it. -/
theorem Program.Settled.initialises_branch :
    let p : Program := ⟨[.function ⟨"main", [], .unit, ⟨[
      .print (some (.name "x" default)) false default,
      .branch (.name "x" default) (.print (some (.name "x" default)) false default) none
        default], default⟩, default⟩], default⟩
    p.Settled ∧ ∃ c r trace, p.compile = .ok c ∧ r ∈ c.listing.routines ∧
      Course r.code trace 16 ∧
      r.code[16]? = some (.move (.memory (.frame (-8))) (.register .rax)) ∧
      .move (.immediate 0) (.memory (.frame (-8))) ∈ trace := by
  intro p
  have hsettled : p.Settled := by
    decide +kernel
  have hrun : p.compile.toOption.any (fun c => c.listing.routines[0]?.any fun r =>
      16 ≤ r.code.length ∧ (∀ i ∈ r.code.take 16, i.falls = true) ∧
      r.code[16]? = some (.move (.memory (.frame (-8))) (.register .rax)) ∧
      .move (.immediate 0) (.memory (.frame (-8))) ∈ r.code) = true := by
    decide +kernel
  obtain ⟨c, hc, hk⟩ := exists_of_any hrun
  obtain ⟨r, hr, hk⟩ := (Option.any_eq_true ..).mp hk
  obtain ⟨hlength, hfalls, hload, hzero⟩ := of_decide_eq_true hk
  have hr := List.mem_of_getElem? hr
  have hcourse := Course.straight hlength hfalls
  obtain ⟨hread, -⟩ := hsettled.initialises hc hr
  have hframe : (Memory.frame (-8)).InFrame := by
    rw [Memory.InFrame]
    decide
  obtain ⟨s, hs, -, hmade⟩ := hread hcourse hload (List.mem_singleton_self _) hframe
  rw [hmade hzero] at hs
  exact ⟨hsettled, c, r, _, hc, hr, hcourse, hload, hs⟩

/-- A name that a branch bound means the same slot behind the branch, which was not written
if control skips the branch. -/
theorem Program.reads_unwritten :
    let p : Program := ⟨[.function ⟨"main", [], .unit, ⟨[
      .branch (.boolean false default) (.print (some (.name "x" default)) false default) none
        default,
      .print (some (.name "x" default)) false default], default⟩, default⟩], default⟩
    ∃ c r trace, p.compile = .ok c ∧ r ∈ c.listing.routines ∧ Course r.code trace 19 ∧
      r.code[19]? = some (.move (.memory (.frame (-8))) (.register .rax)) ∧
      ∀ s ∈ trace, .frame (-8) ∉ s.stores := by
  intro p
  have hrun : p.compile.toOption.any (fun c => c.listing.routines[0]?.any fun r =>
      9 ≤ r.code.length ∧ (∀ i ∈ r.code.take 9, i.falls = true ∧ .frame (-8) ∉ i.stores) ∧
      r.code[9]? = some (.jumpIf .e (.numbered .otherwise 1)) ∧
      r.code[17]? = some (.label (.numbered .otherwise 1)) ∧
      r.code[18]? = some (.label (.numbered .endIf 1)) ∧
      r.code[19]? = some (.move (.memory (.frame (-8))) (.register .rax))) = true := by
    decide +kernel
  obtain ⟨c, hc, hk⟩ := exists_of_any hrun
  obtain ⟨r, hr, hk⟩ := (Option.any_eq_true ..).mp hk
  obtain ⟨hlength, hlead, hjump, hotherwise, hend, hload⟩ := of_decide_eq_true hk
  have hskip : Course r.code _ 17 :=
    .jump (.straight hlength fun i hi => (hlead i hi).1) hjump rfl hotherwise
  have hcourse : Course r.code _ 19 := (hskip.next hotherwise rfl).next hend rfl
  refine ⟨c, r, _, hc, List.mem_of_getElem? hr, hcourse, hload, ?_⟩
  simp only [List.forall_mem_cons, List.mem_reverse]
  exact ⟨by simp, by simp, by simp, fun i hi => (hlead i hi).2⟩

end ScriptLang
