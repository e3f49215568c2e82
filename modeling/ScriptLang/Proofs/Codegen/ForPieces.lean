import ScriptLang.Proofs.Codegen.Allotment
import ScriptLang.Proofs.Codegen.Labels

/-!
# The code of a `for`

The bounds are computed and kept in slots, then the step is checked and kept. Behind it the
code of the body stands between the head of a lap and the end of one.
-/

namespace ScriptLang

open Assembly

namespace Gen

/-- Makes an expression, as an integer, the result. -/
def bound (e : Expr) : Gen Unit := do emitCoercion (← expression e) .integer e.span.start

/-- The code is what the computation appends, in a state where it gives a result. -/
def Appends {α : Type} (x : Gen α) (code : List Instruction) : Prop :=
  ∃ a g g', x g = .ok a g' ∧ g'.code = g.code ++ code

/-- The code that keeps the step of a loop: the result, once it is checked, or else one. -/
def keepStep (step : Option (List Instruction)) (slot : Slot) : List Instruction :=
  match step with
  | some _ => [.test .rax, .jumpIf .e (.trap .zeroStep), .jumpIf .s (.trap .negativeStep)] ++
      slot.storeCode
  | none => [.move (.immediate 1) (.memory slot.low)]

/-- The pieces of the code of a `for`. -/
structure ForPieces where
  /-- The number of its labels. -/
  number : Nat
  slots : LoopSlots
  /-- The variable that the body sees. -/
  copy : Slot
  start : List Instruction
  stop : List Instruction
  /-- There is none for the step that goes without saying. -/
  step : Option (List Instruction)
  body : List Instruction

namespace ForPieces

/-- The code up to where the step is the result. -/
def bounds (p : ForPieces) : List Instruction :=
  p.start ++ p.slots.counter.storeCode ++ p.stop ++ p.slots.limit.storeCode ++ p.step.getD []

def code (p : ForPieces) : List Instruction :=
  p.bounds ++ keepStep p.step p.slots.step ++ (lapHead p.number p.slots p.copy ++ p.body ++ lapTail p.number p.slots)

/-- The pieces are the code of these parts, and the body has no label of the loop. -/
structure Spells (p : ForPieces) (range : Expr) (body : Stmt) : Prop where
  bounds : ∃ first last step span,
    range.ungroup = .range first last p.slots.excludesStop p.slots.descending step span ∧
      Appends (bound first) p.start ∧ Appends (bound last) p.stop ∧
      Option.Rel (fun e => Appends (bound e)) step p.step
  body : Appends (inLoop ⟨.numbered .forNext p.number, .numbered .forEnd p.number⟩
    (statement body)) p.body
  labels : ∀ mark, .label (.numbered mark p.number) ∉ p.body

end ForPieces

/-- The slots of a loop were handed out one by one. -/
structure LoopSlots.Handed (slots : LoopSlots) (as : List Allotment) : Prop where
  counter : ⟨slots.counter, .counter⟩ ∈ as
  limit : ⟨slots.limit, .temporary⟩ ∈ as
  step : ⟨slots.step, .temporary⟩ ∈ as
  ne : slots.limit ≠ slots.step
  types : slots.counter.type = .integer ∧ slots.limit.type = .integer ∧
    slots.step.type = .integer

theorem LoopSlots.Handed.later {slots : LoopSlots} {as bs : List Allotment}
    (h : slots.Handed as) (hsub : as ⊆ bs) : slots.Handed bs :=
  ⟨hsub h.counter, hsub h.limit, hsub h.step, h.ne, h.types⟩

variable {cells : List Slot} {s : Stage} {e : Expr} {g : Generator}

theorem shaped_bound (e : Expr) (s : Stage) : Shaped cells (bound e) s :=
  (shapes_expression e s).andThen fun _ _ => shapes_emitCoercion _ _ _

variable (cells) in
theorem run_bound {β : Type} {f : Unit → Gen β} {b : β} (hs : s.generator.Rooted)
    (h : (do let type ← expression e; emitCoercion type .integer e.span.start >>= f)
      s.generator = .ok b g) :
    ∃ (t : Stage) (c : List Instruction), Makes cells s c t ∧ Appends (bound e) c ∧
      t.generator.code = s.generator.code ++ c ∧ t.generator.Rooted ∧ f () t.generator = .ok b g := by
  have h : (bound e >>= f) s.generator = .ok b g := by
    rw [bound, bind_assoc]
    exact h
  obtain ⟨_, g', hx, h⟩ := bind_ok.mp h
  obtain ⟨c, allotted, hc, hm, -⟩ := shaped_bound e s hs _ g' hx
  exact ⟨⟨g', allotted⟩, c, hm, ⟨_, _, _, hx, hc⟩, hc, (hm.before hs).rooted hs, h⟩

end Gen

namespace Stage

/-- Behind code that keeps an integer in a slot without a name. -/
def keeping (s : Stage) (purpose : Purpose) (code : List Instruction) : Stage :=
  (s.handing .integer purpose).emitting code

variable {cells : List Slot} {s : Stage} {purpose : Purpose}

theorem Before.keeping (s : Stage) (purpose : Purpose) (code : List Instruction) :
    s.Before (s.keeping purpose code) :=
  (Before.handing s .integer purpose).trans (.pools (.coded _ _ _))

theorem Tidy.keeping (h : s.Tidy cells) (hp : purpose = .temporary ∨ purpose = .counter)
    (code : List Instruction) : (s.keeping purpose code).Tidy cells :=
  (h.handing .integer hp).congr rfl rfl rfl

end Stage

/-- A slot for integers that is a variable: one of the frame, or a cell. -/
structure Counted (cells : List Slot) (as : List Allotment) (copy : Slot) : Prop where
  type : copy.type = .integer
  place : copy ∈ cells ∨ ∃ name, ⟨copy, .variable name⟩ ∈ as

namespace CountsIn

variable {cells : List Slot} {s t : Stage} {copy : Slot} {leave : Stage → Stage}

/-- What a loop counts in is a variable. -/
theorem counted (hc : CountsIn s copy t leave)
    (hs : s.Tidy cells) : Counted cells t.allotted copy := by
  cases hc with
  | there hn htype =>
    refine ⟨htype, ?_⟩
    rcases hn with ⟨scope, hscope, name, hn⟩ | ⟨name, hn⟩
    · exact .inr ⟨name, hs.named scope hscope name copy hn⟩
    · exact .inl (hs.globals name copy hn)
  | own name => exact ⟨rfl, .inr ⟨name, List.mem_cons_self⟩⟩

/-- A loop that counts in a variable goes on from a stage behind. -/
theorem entered (hc : CountsIn s copy t leave) :
    s.allotted ⊆ t.allotted ∧ t.generator.labels = s.generator.labels ∧
      t.generator.code = s.generator.code ∧ ∀ u : Stage,
        (leave u).generator.frame.used = u.generator.frame.used ∧
        (leave u).generator.code = u.generator.code := by
  cases hc with
  | there => exact ⟨List.Subset.refl _, rfl, rfl, fun _ => ⟨rfl, rfl⟩⟩
  | own name => exact ⟨List.subset_cons_self _ _, rfl, rfl, fun u => ⟨Frame.used_pop _, rfl⟩⟩

end CountsIn

namespace Gen

variable {cells : List Slot} {s : Stage} {g : Generator} {slots : LoopSlots}

/-- The step is checked and kept, if there is one. -/
theorem run_loopStep {step : Option Expr} {slot : Slot} (hs : s.generator.Rooted)
    (ht : s.Tidy cells) (h : loopStep step s.generator = .ok slot g) :
    ∃ (t : Stage) (c : Option (List Instruction)),
      Option.Rel (fun e => Appends (bound e)) step c ∧ t.generator = g ∧ t.Tidy cells ∧
      s.Before t ∧ slot.type = .integer ∧ ⟨slot, .temporary⟩ ∈ t.allotted ∧
      ⟨slot, .temporary⟩ ∉ s.allotted ∧
      g.code = s.generator.code ++ (c.getD [] ++ keepStep c slot) := by
  cases step with
  | none =>
    cases h
    exact ⟨_, none, .none, rfl, ht.keeping (.inl rfl) _, .keeping s _ _, rfl, List.mem_cons_self,
      ht.fresh_notMem _ _, rfl⟩
  | some e =>
    obtain ⟨t, c, hm, hc, hcode, -, hx⟩ := run_bound cells hs h
    let u := t.emitting [.test .rax, .jumpIf .e (.trap .zeroStep),
      .jumpIf .s (.trap .negativeStep)]
    have hu : u.Tidy cells := (hm.tidy ht).congr rfl rfl rfl
    have hb : s.Before u := (hm.before hs).trans (.pools (.coded _ _ _))
    cases hx
    refine ⟨u.keeping .temporary (u.fresh .integer).storeCode, some c, .some hc, rfl,
      hu.keeping (.inl rfl) _, hb.trans (.keeping u _ _), rfl, List.mem_cons_self,
      fun hmem => hu.fresh_notMem _ _ (hb.allotted.subset hmem), Array.ext' ?_⟩
    simp [hcode, keepStep]

/-- The bounds are computed and kept in turn. -/
theorem run_loopSlots (position : Position) : ∀ {r : Expr} {s : Stage},
    s.generator.Rooted → s.Tidy cells → loopSlots position r s.generator = .ok slots g →
    ∃ (t : Stage) (first last : Expr) (step : Option Expr) (span : Span)
      (c d : List Instruction) (e : Option (List Instruction)),
      r.ungroup = .range first last slots.excludesStop slots.descending step span ∧
      Appends (bound first) c ∧ Appends (bound last) d ∧
      Option.Rel (fun e => Appends (bound e)) step e ∧ t.generator = g ∧ t.Tidy cells ∧
      s.Before t ∧ slots.Handed t.allotted ∧
      g.code = s.generator.code ++ (c ++ slots.counter.storeCode ++ d ++ slots.limit.storeCode ++
        e.getD [] ++ keepStep e slots.step)
  | .group inner _, _, hs, ht, h => run_loopSlots position (r := inner) hs ht h
  | .range first last excludesStop descending step span, s, hs, ht, h => by
    obtain ⟨t₁, c, hm₁, hc, hcode₁, hr₁, h⟩ := run_bound cells hs h
    let u₁ := t₁.keeping .counter (t₁.fresh .integer).storeCode
    have hu₁ : u₁.Tidy cells := (hm₁.tidy ht).keeping (.inr rfl) _
    have hb₁ : s.Before u₁ := (hm₁.before hs).trans (.keeping t₁ _ _)
    obtain ⟨t₂, d, hm₂, hd, hcode₂, hr₂, h⟩ := run_bound cells (s := u₁) (e := last) hr₁ h
    let u₂ := t₂.keeping .temporary (t₂.fresh .integer).storeCode
    have hu₂ : u₂.Tidy cells := (hm₂.tidy hu₁).keeping (.inl rfl) _
    have hb₂ : u₁.Before u₂ := (hm₂.before hr₁).trans (.keeping t₂ _ _)
    obtain ⟨slot, g', hx, h⟩ := bind_ok.mp
      (show (loopStep step >>= fun slot => pure (LoopSlots.mk (t₁.fresh .integer)
        (t₂.fresh .integer) slot excludesStop descending)) u₂.generator = .ok slots g from h)
    obtain ⟨rfl, rfl⟩ := pure_ok.mp h
    obtain ⟨t₃, e, he, rfl, ht₃, hb₃, htype, hslot, hne, hcode₃⟩ :=
      run_loopStep (s := u₂) hr₂ hu₂ hx
    refine ⟨t₃, first, last, step, span, c, d, e, rfl, hc, hd, he, rfl, ht₃,
      (hb₁.trans hb₂).trans hb₃, ⟨?_, ?_, hslot, ?_, rfl, rfl, htype⟩, Array.ext' ?_⟩
    · exact (hb₂.trans hb₃).allotted.subset List.mem_cons_self
    · exact hb₃.allotted.subset List.mem_cons_self
    · intro heq
      have heq : t₂.fresh .integer = slot := heq
      exact hne (heq ▸ List.mem_cons_self)
    · simp [hcode₃, hcode₂, hcode₁, u₁, u₂, Stage.keeping, Stage.emitting, Stage.handing]
  | .integer .., _, _, _, h | .float .., _, _, _, h | .boolean .., _, _, _, h
  | .string .., _, _, _, h | .name .., _, _, _, h | .binary .., _, _, _, h
  | .unary .., _, _, _, h | .call .., _, _, _, h | .run .., _, _, _, h => by cases h

/-- The code of a `for` has these pieces, whatever is around it. -/
theorem pieces_of_forLoop {counter : String} {range : Expr} {body : Stmt} {span : Span}
    (hs : s.generator.Rooted) (ht : s.Tidy cells)
    (h : statement (.forLoop counter range body span) s.generator = .ok () g) :
    ∃ (p : ForPieces) (t : Stage), p.Spells range body ∧ g.code = s.generator.code ++ p.code ∧
      t.Tidy cells ∧ p.slots.Handed t.allotted ∧ Counted cells t.allotted p.copy ∧
      t.generator.frame.used ≤ g.frame.used := by
  obtain ⟨_, _, ⟨⟩, h⟩ := bind_ok.mp h
  obtain ⟨slots, g₁, hx, h⟩ := bind_ok.mp h
  obtain ⟨t, first, last, step, span', c, d, e, hrange, hc, hd, he, rfl, ht₁, hb, hslots, hcode⟩ :=
    run_loopSlots (s := s.numbered) range.span.start hs (ht.congr rfl rfl rfl) hx
  have hr : t.generator.Rooted := hb.rooted hs
  obtain ⟨copy, u, leave, g₂, hcounts, hlaps, hg⟩ := run_withCounter h
  have hru := hcounts.rooted hr
  obtain ⟨v, f, hm, hbody, hcode₂, rfl⟩ := run_laps
    (fun t => show Shaped cells _ t from shapes_statement body t) hru hlaps
  obtain ⟨hsub, hlabels, hcode₁, hleave⟩ := hcounts.entered
  have hv := Stage.Before.looped (hm.before hru)
  refine ⟨⟨s.number, slots, copy, c, d, e, f⟩, u, ⟨⟨first, last, step, span', hrange, hc, hd, he⟩,
    ⟨_, _, _, hbody, ?_⟩, fun mark hmem => ?_⟩, ?_, (ht₁.counting hcounts).1, hslots.later hsub,
    hcounts.counted ht₁, ?_⟩
  · refine Array.ext' ?_
    simp [Stage.looped, Stage.emitting, hcode₂]
  · obtain ⟨_, n, heq, hlow, -⟩ := (hm.labelled hru).numbered.between (.numbered mark s.number)
      (List.mem_filterMap.mpr ⟨_, hmem, rfl⟩)
    cases heq
    have hlow' : s.number ≤ t.generator.labels := hb.labels
    rw [← hlabels] at hlow'
    exact absurd hlow (Nat.not_lt.mpr hlow')
  · rw [hg [], (hleave _).2]
    refine Array.ext' ?_
    simp [Stage.looped, Stage.emitting, hcode₂, hcode₁, hcode, ForPieces.code, ForPieces.bounds,
      Stage.numbered, Stage.number]
  · rw [hg [], (hleave _).1]
    exact hv.used

end Gen

end ScriptLang
