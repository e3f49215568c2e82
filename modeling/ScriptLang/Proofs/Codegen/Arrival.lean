import ScriptLang.Proofs.Codegen.Growth
import ScriptLang.Proofs.Codegen.Spot

/-!
# Arriving at a spot

Generation for a tree comes by every spot in it: what is generated there follows the code
that stands in front, and the rest only appends to it. The jumps of a loop lead to labels
around the code of its body.
-/

namespace ScriptLang

open Assembly Gen Generator

namespace Generator

/-- The second state is reached from the first by this code, in the bodies of these loops, and
perhaps in more scopes. -/
structure Reaches (g : Generator) (c : List Instruction) (ls : List LoopLabels)
    (h : Generator) : Prop extends Appends g c h where
  balanced : Balanced c
  signatures : h.signatures = g.signatures
  rooted : h.Rooted
  used : g.frame.used ≤ h.frame.used
  loops : h.loops = ls ++ g.loops
  current : h.current = g.current
  topLevelExit : h.topLevelExit = g.topLevelExit

namespace Reaches

variable {g h k : Generator} {c d : List Instruction} {ls ms : List LoopLabels}

theorem of_continues (hc : g.Continues c h) (hg : g.Rooted) : g.Reaches c [] h where
  toAppends := hc.toAppends
  balanced := hc.balanced
  signatures := hc.signatures
  rooted := hc.rooted hg
  used := hc.used
  loops := hc.loops
  current := hc.current
  topLevelExit := hc.topLevelExit

theorem trans (h₁ : g.Reaches c ls h) (h₂ : h.Reaches d ms k) :
    g.Reaches (c ++ d) (ms ++ ls) k where
  toAppends := h₁.toAppends.trans h₂.toAppends
  balanced := h₁.balanced.append h₂.balanced
  signatures := h₂.signatures.trans h₁.signatures
  rooted := h₂.rooted
  used := Int.le_trans h₁.used h₂.used
  loops := by rw [h₂.loops, h₁.loops, List.append_assoc]
  current := h₂.current.trans h₁.current
  topLevelExit := h₂.topLevelExit.trans h₁.topLevelExit

/-- A scope is entered. -/
theorem pushed (g : Generator) : g.Reaches [] [] g.pushed where
  toAppends := .of_eq rfl rfl
  balanced := .nil
  signatures := rfl
  rooted := List.cons_ne_nil _ _
  used := Int.le_refl _
  loops := rfl
  current := rfl
  topLevelExit := rfl

/-- The body of a loop is entered. -/
theorem looping (hg : g.Rooted) (labels : LoopLabels) :
    g.Reaches [] [labels] { g with loops := labels :: g.loops } where
  toAppends := .of_eq rfl rfl
  balanced := .nil
  signatures := rfl
  rooted := hg
  used := Int.le_refl _
  loops := rfl
  current := rfl
  topLevelExit := rfl

end Reaches

end Generator

namespace Gen

variable {α β : Type} {x : Gen α} {f : α → Gen β} {g g' : Generator}

/-- The first part of a computation, and what the rest appends. -/
theorem Continuing.split (hx : Continuing x) (hf : ∀ a, Continuing (f a)) (hg : g.Rooted)
    {b : β} (h : (x >>= f) g = .ok b g') :
    ∃ a h', x g = .ok a h' ∧ ∃ post, h'.Appends post g' := by
  obtain ⟨a, h', hx', h⟩ := bind_ok.mp h
  exact ⟨a, h', hx', ((hf a).run ((hx.run hg hx').1) h).2⟩

/-- An argument or an end of a range is evaluated, converted and kept in a slot. -/
theorem continuing_kept {e : Expr} {type : ValueType} {position : Position} {f : Slot → Gen β}
    (hf : ∀ slot, Continuing (f slot)) :
    Continuing (do
      emitCoercion (← expression e) type position
      f (← spill type)) :=
  (continuing_expression e).bind fun _ => (continuing_emitCoercion _ _ _).bind fun _ =>
    (continuing_spill _).bind hf

theorem run_kept {e : Expr} {type : ValueType} {position : Position} {f : Slot → Gen β} {b : β}
    (hg : g.Rooted)
    (hx : (do
      emitCoercion (← expression e) type position
      f (← spill type)) g = .ok b g') :
    ∃ slot h, h.Rooted ∧ f slot h = .ok b g' ∧ ∀ {γ : Type} (k : Slot → Gen γ), (do
      emitCoercion (← expression e) type position
      k (← spill type)) g = k slot h := by
  obtain ⟨t, g₁, h₁, hx⟩ := bind_ok.mp hx
  obtain ⟨_, g₂, h₂, hx⟩ := bind_ok.mp hx
  obtain ⟨slot, h, h₃, hx⟩ := bind_ok.mp hx
  have hr₂ := ((continuing_emitCoercion _ _ _).run ((continuing_expression e).run hg h₁).1 h₂).1
  exact ⟨slot, h, ((continuing_spill _).run hr₂ h₃).1, hx, fun _ =>
    (bind_of_ok _ h₁).trans ((bind_of_ok _ h₂).trans (bind_of_ok _ h₃))⟩

/-- Generates a statement; a declaration perhaps for a cell. -/
def housed (cell : Option Slot) (s : Stmt) : Gen Unit :=
  match s, cell with
  | .declare name constant type value span, some cell => do
    emitDeclaration (some cell) name constant type (← option value) span.start
  | s, _ => statement s

theorem housed_none (s : Stmt) : housed none s = statement s := by cases s <;> rfl

/-- Code is appended by what is generated between the states for a part of a tree. -/
def Runs : (k : Part) → k.Tree → Generator → Generator → Prop
  | .expression, e, g, g' => ∃ type, expression e g = .ok type g'
  | .range, e, g, g' => ∃ position slots, loopSlots position e g = .ok slots g'
  | .statement, s, g, g' => ∃ cell, housed cell s g = .ok () g'
  | .body true, b, g, g' => ∃ type, lastValue b g = .ok type g'
  | .body false, b, g, g' => statements b g = .ok () g'

end Gen

/-- The part is no name, so a step of it is no step of a variable. -/
def Part.Nameless : (k : Part) → k.Tree → Prop
  | .expression, e => e.ungroup.name? = none
  | _, _ => True

theorem Layer.nameless {i o : Part} (l : Layer i o) {x : i.Tree} (h : i.Nameless x) :
    o.Nameless (l.fill x) := by
  cases l with
  | group span => exact h
  | _ => trivial

theorem Spot.nameless {i : Part} {x : i.Tree} (h : i.Nameless x) :
    ∀ {o : Part} (spot : Spot i o), o.Nameless (spot.fill x)
  | _, .here => h
  | _, .within l spot => l.nameless (spot.nameless h)

/-- Generation comes by the part that is put in: the code in front is generated, then that
of the part, and then more. -/
def Layer.Passes {i o : Part} (l : Layer i o) (x : i.Tree) (g g' : Generator) : Prop :=
  ∃ h h', l.lead g = .ok () h ∧ Runs i x h h' ∧ ∃ post, h'.Appends post g'

namespace Layer

variable {β : Type} {o : Part} {g g' h h' : Generator}

section Expressions

variable {e left right : Expr} {span : Span} {type : ValueType}

/-- Behind the code in front, an expression is generated first. -/
theorem Passes.of_first {l : Layer .expression o} (hlead : l.lead g = .ok () h) (hh : h.Rooted)
    {f : ValueType → Gen β} (hf : ∀ t, Continuing (f t)) {b : β}
    (hx : (expression e >>= f) h = .ok b g') : l.Passes e g g' := by
  obtain ⟨t, h', ht, hpost⟩ := (continuing_expression e).split hf hh hx
  exact ⟨h, h', hlead, ⟨t, ht⟩, hpost⟩

theorem passes_operand {operator : UnaryOperator} (hg : g.Rooted) (he : e.ungroup.name? = none)
    (hx : expression (.unary operator e span) g = .ok type g') :
    (operand operator span).Passes e g g' := by
  cases operator with
  | step step =>
    rw [expression, he] at hx
    exact ⟨g, g', rfl, ⟨type, hx⟩, [], .of_eq rfl rfl⟩
  | _ => exact .of_first rfl hg (fun _ => continuing_emitUnary _ _ _) hx

/-- Among expressions that are evaluated for their effects, one comes behind those in front. -/
theorem run_discarded {before after : List Expr} (hg : g.Rooted)
    (hx : discarded (before ++ e :: after) g = .ok () g') :
    ∃ h h', discarded before g = .ok () h ∧ (∃ t, expression e h = .ok t h') ∧
      ∃ post, h'.Appends post g' := by
  induction before generalizing g with
  | nil =>
    obtain ⟨t, h', ht, hpost⟩ :=
      (continuing_expression e).split (fun _ => continuing_discarded after) hg hx
    exact ⟨g, h', rfl, ⟨t, ht⟩, hpost⟩
  | cons b before ih =>
    obtain ⟨t, g₁, h₁, hx⟩ := bind_ok.mp hx
    obtain ⟨h, h', hbefore, hrest⟩ := ih ((continuing_expression b).run hg h₁).1 hx
    exact ⟨h, h', (bind_of_ok _ h₁).trans hbefore, hrest⟩

/-- Among arguments, one comes behind those in front. -/
theorem run_stored {before after : List Expr} {ps : List Parameter} {slots : List Slot}
    (hg : g.Rooted) (hlength : ps.length = before.length + 1 + after.length)
    (hx : stored (before ++ e :: after) ps g = .ok slots g') :
    ∃ ss h h', stored before ps g = .ok ss h ∧ (∃ t, expression e h = .ok t h') ∧
      ∃ post, h'.Appends post g' := by
  induction before generalizing g ps slots with
  | nil =>
    obtain _ | ⟨p, ps⟩ := ps
    · exact absurd hlength (by rw [List.length_nil]; omega)
    obtain ⟨t, h', ht, hx⟩ := bind_ok.mp hx
    have hr := ((continuing_expression e).run hg ht).1
    have hrest : Continuing (do
        emitCoercion t p.type.valueType e.span.start
        let slot ← spill p.type.valueType
        return slot :: (← stored after ps)) :=
      (continuing_emitCoercion _ _ _).bind fun _ => (continuing_spill _).bind fun _ =>
        (continuing_stored _ _).bind fun _ => .pure _
    exact ⟨[], g, h', rfl, ⟨t, ht⟩, (hrest.run hr hx).2⟩
  | cons b before ih =>
    obtain _ | ⟨p, ps⟩ := ps
    · exact absurd hlength (by rw [List.length_nil]; omega)
    rw [List.length_cons, List.length_cons] at hlength
    obtain ⟨slot, k, hk, hx, hfirst⟩ := run_kept hg hx
    obtain ⟨slots, g₁, h₁, hx⟩ := bind_ok.mp hx
    cases hx
    obtain ⟨ss, h, h', hss, ht, hpost⟩ := ih hk (by omega) h₁
    refine ⟨slot :: ss, h, h', ?_, ht, hpost⟩
    rw [stored]
    exact (hfirst _).trans (bind_of_ok _ hss)

theorem passes_argument {callee : String} {before after : List Expr} (hg : g.Rooted)
    (hx : expression (.call callee (before ++ e :: after) span) g = .ok type g') :
    (argument callee before after span).Passes e g g' := by
  have hlength : (before ++ e :: after).length = before.length + 1 + after.length := by
    simp only [List.length_append, List.length_cons]
    omega
  -- Arguments of a call that cannot be made are evaluated all the same.
  have hfailed : ∀ {cause : Cause} {t : ValueType}, (argument callee before after span).lead g =
      discarded before g → (do
        discarded (before ++ e :: after)
        emitFailedCall cause t span.start) g = .ok type g' →
      (argument callee before after span).Passes e g g' := by
    intro cause t hlead hx
    obtain ⟨_, g₁, h₁, hx⟩ := bind_ok.mp hx
    have hr₁ := ((continuing_discarded _).run hg h₁).1
    obtain ⟨h, h', hbefore, ht, post, hpost⟩ := run_discarded hg h₁
    obtain ⟨-, c, hc⟩ := (continuing_emitFailedCall _ _ _).run hr₁ hx
    exact ⟨h, h', hlead.trans hbefore, ht, post ++ c, hpost.trans hc⟩
  rw [expression, get_bind] at hx
  cases hf : g.signatures.find? callee with
  | none =>
    rw [hf] at hx
    refine hfailed ?_ hx
    rw [lead, get_bind, hf]
  | some signature =>
    rw [hf] at hx
    have hlead : (argument callee before after span).lead g =
        (if signature.function.parameters.length = (before ++ e :: after).length then do
          let _ ← stored before signature.function.parameters
        else discarded before) g := by
      rw [lead, get_bind, hf, hlength]
    dsimp only at hx
    split at hx
    · next hcount =>
      obtain ⟨slots, g₁, h₁, hx⟩ := bind_ok.mp hx
      have hr₁ := ((continuing_stored _ _).run hg h₁).1
      obtain ⟨ss, h, h', hbefore, ht, post, hpost⟩ := run_stored hg (hcount.trans hlength) h₁
      have hrest : Continuing (do
          emit (callCode signature.symbol slots)
          if signature.function.returns = .unit then emit [.clear .rax]
          return signature.function.returns.valueType) := by
        refine (continuing_callCode _ _).bind fun _ => ?_
        split
        · exact (continuing_emit (by simp [Instruction.Level])).bind fun _ => .pure _
        · exact .pure _
      obtain ⟨-, c, hc⟩ := hrest.run hr₁ hx
      rw [if_pos hcount] at hlead
      exact ⟨h, h', hlead.trans (bind_of_ok _ hbefore), ht, post ++ c,
        hpost.trans hc⟩
    · next hcount =>
      rw [if_neg hcount] at hlead
      exact hfailed hlead hx

theorem passes_expression {i : Part} (l : Layer i .expression) {x : i.Tree} (hg : g.Rooted)
    (hx : i.Nameless x) (h : Runs .expression (l.fill x) g g') : l.Passes x g g' := by
  obtain ⟨type, h⟩ := h
  cases l with
  | group span => exact ⟨g, g', rfl, ⟨type, h⟩, [], .of_eq rfl rfl⟩
  | leftOperand operator right span =>
    exact .of_first rfl hg (fun _ => (continuing_spill _).bind fun _ =>
      (continuing_expression right).bind fun _ => continuing_emitBinary _ _ _ _) h
  | rightOperand operator left span =>
    obtain ⟨t, g₁, h₁, h⟩ := bind_ok.mp h
    obtain ⟨slot, g₂, h₂, h⟩ := bind_ok.mp h
    have hr := ((continuing_spill _).run ((continuing_expression left).run hg h₁).1 h₂).1
    exact .of_first ((bind_of_ok _ h₁).trans (bind_of_ok _ h₂)) hr
      (fun _ => continuing_emitBinary _ _ _ _) h
  | operand operator span => exact passes_operand hg hx h
  | argument callee before after span => exact passes_argument hg h
  | lowerBound stop excludesStop descending step span =>
    exact .of_first rfl hg (fun _ => (continuing_emitCoercion _ _ _).bind fun _ =>
      (continuing_spill _).bind fun _ => (continuing_expression stop).bind fun _ =>
        (continuing_emitCoercion _ _ _).bind fun _ =>
          (continuing_emit (by simp [Instruction.Level])).bind fun _ => .pure _) h
  | upperBound start excludesStop descending step span =>
    obtain ⟨slot, k, hk, h, hlead⟩ := run_kept hg h
    exact .of_first (hlead fun _ => return) hk (fun _ =>
      (continuing_emitCoercion _ _ _).bind fun _ =>
        (continuing_emit (by simp [Instruction.Level])).bind fun _ => .pure _) h
  | run inner outer =>
    rw [fill, expression] at h
    obtain ⟨t, g₁, h₁, h⟩ := bind_ok.mp h
    obtain ⟨_, g₂, ⟨⟩, h₁⟩ := bind_ok.mp h₁
    obtain ⟨v, h', hv, h₁⟩ := bind_ok.mp h₁
    cases h₁
    refine ⟨_, h', rfl, ⟨t, hv⟩, ?_⟩
    cases t with
    | some t =>
      cases h
      exact ⟨[], .of_eq rfl rfl⟩
    | none =>
      cases h
      exact ⟨_, rfl, List.prefix_rfl⟩

end Expressions

/-- Behind the code in front, an expression is generated first, and made an integer to keep. -/
theorem passes_range {i : Part} (l : Layer i .range) {x : i.Tree} (hg : g.Rooted)
    (h : Runs .range (l.fill x) g g') : l.Passes x g g' := by
  obtain ⟨position, slots, h⟩ := h
  have hend : ∀ (e : Option Expr) (counter limit : Slot) (excludesStop descending : Bool),
      Continuing (do
        return LoopSlots.mk counter limit (← loopStep e) excludesStop descending) :=
    fun e _ _ _ _ => (continuing_loopStep e).bind fun _ => .pure _
  cases l with
  | rangeGroup span => exact ⟨g, g', rfl, ⟨position, slots, h⟩, [], .of_eq rfl rfl⟩
  | rangeLower stop excludesStop descending step span =>
    exact .of_first rfl hg (fun _ => (continuing_emitCoercion _ _ _).bind fun _ =>
      (continuing_spill _).bind fun _ => continuing_kept fun _ => hend step _ _ _ _) h
  | rangeUpper start excludesStop descending step span =>
    obtain ⟨slot, k, hk, h, hlead⟩ := run_kept hg h
    exact .of_first (hlead fun _ => return) hk (fun _ =>
      (continuing_emitCoercion _ _ _).bind fun _ => (continuing_spill _).bind fun _ =>
        hend step _ _ _ _) h
  | rangeStep start stop excludesStop descending span =>
    obtain ⟨counter, k, hk, h, hstart⟩ := run_kept hg h
    obtain ⟨limit, u, hu, h, hstop⟩ := run_kept hk h
    obtain ⟨step, g₁, h₁, h⟩ := bind_ok.mp h
    cases h
    refine .of_first ((hstart _).trans (hstop fun _ => return)) hu (fun t =>
      (continuing_emitCoercion _ _ _).bind fun _ => (?_ : Continuing emitStepCheck)) h₁
    exact (continuing_emit (by simp [Instruction.Level])).bind fun _ => continuing_spill _

/-- The first of the statements of a `run` is generated like all others. -/
theorem run_lastValue {s : Stmt} {rest : List Stmt} {type : Option ValueType}
    (h : lastValue (s :: rest) g = .ok type g') :
    ∃ g₁, statement s g = .ok () g₁ ∧ ∃ type, lastValue rest g₁ = .ok type g' := by
  have hothers : (do statement s; lastValue rest) g = .ok type g' →
      ∃ g₁, statement s g = .ok () g₁ ∧ ∃ type, lastValue rest g₁ = .ok type g' := by
    intro h
    obtain ⟨_, g₁, h₁, h⟩ := bind_ok.mp h
    exact ⟨g₁, h₁, type, h⟩
  cases s with
  | expression e =>
    cases rest with
    | nil =>
      obtain ⟨t, ht, -⟩ := map_ok.mp h
      exact ⟨g', bind_of_ok _ ht, none, rfl⟩
    | cons => exact hothers h
  | _ => exact hothers h

theorem passes_body {i : Part} {valued : Bool} (l : Layer i (.body valued)) {x : i.Tree}
    (hg : g.Rooted) (h : Runs (.body valued) (l.fill x) g g') : l.Passes x g g' := by
  cases l with
  | head valued rest =>
    cases valued with
    | false =>
      obtain ⟨_, h', hs, hpost⟩ :=
        (continuing_statement x).split (fun _ => continuing_statements rest) hg h
      exact ⟨g, h', rfl, ⟨none, (congrFun (housed_none x) g).trans hs⟩, hpost⟩
    | true =>
      obtain ⟨type, h⟩ := h
      obtain ⟨h', hs, type, h⟩ := run_lastValue h
      have hr := ((continuing_statement x).run hg hs).1
      exact ⟨g, h', rfl, ⟨none, (congrFun (housed_none x) g).trans hs⟩,
        ((continuing_lastValue rest).run hr h).2⟩
  | tail valued first =>
    cases valued with
    | false =>
      obtain ⟨_, h', hs, h⟩ := bind_ok.mp h
      exact ⟨h', g', hs, h, [], .of_eq rfl rfl⟩
    | true =>
      obtain ⟨type, h⟩ := h
      obtain ⟨h', hs, type, h⟩ := run_lastValue h
      exact ⟨h', g', hs, ⟨type, h⟩, [], .of_eq rfl rfl⟩

end Layer

/-! ## Loops -/

namespace Gen

variable {g g' : Generator}

/-- From some state the computation gives the result and appends the code. -/
def Coded {α : Type} (x : Gen α) (a : α) (code : List Instruction) : Prop :=
  ∃ g g', x g = .ok a g' ∧ g'.code = g.code ++ code

/-- The body of a `for` is generated behind the variable that it counts in. -/
theorem run_enterCounter {counter : String} {body : Slot → Gen Unit}
    (h : withCounter counter body g = .ok () g') :
    ∃ copy h h', enterCounter counter g = .ok copy h ∧ body copy h = .ok () h' ∧
      h'.Appends [] g' := by
  have hown : inScope (do body (← declare counter .integer true)) g = .ok () g' →
      ∃ copy h h', (do modifyFrame .push; declare counter .integer true) g = .ok copy h ∧
        body copy h = .ok () h' ∧ h'.Appends [] g' := by
    intro h
    obtain ⟨_, _, ⟨⟩, h⟩ := bind_ok.mp h
    obtain ⟨_, h', hbody, h⟩ := bind_ok.mp h
    obtain ⟨copy, u, hdeclare, hbody⟩ := bind_ok.mp hbody
    cases h
    exact ⟨copy, u, h', hdeclare, hbody, .of_eq rfl rfl⟩
  rw [withCounter, get_bind] at h
  rw [enterCounter, get_bind]
  cases hf : g.find? counter with
  | none =>
    rw [hf] at h
    exact hown h
  | some slot =>
    rw [hf] at h
    dsimp only at h ⊢
    split at h
    · next hc =>
      rw [if_pos hc]
      exact ⟨slot, g, g', rfl, h, .of_eq rfl rfl⟩
    · next hc =>
      rw [if_neg hc]
      exact hown h

theorem reaches_enterCounter {counter : String} {copy : Slot} (hg : g.Rooted)
    (h : enterCounter counter g = .ok copy g') : g.Reaches [] [] g' := by
  have hown : (do modifyFrame .push; declare counter .integer true) g = .ok copy g' →
      g.Reaches [] [] g' := by
    intro h
    obtain ⟨_, _, ⟨⟩, h⟩ := bind_ok.mp h
    have hpushed := Reaches.pushed g
    have hc : g.pushed.Continues [] g' := continues_declare h
    exact hpushed.trans (.of_continues hc hpushed.rooted)
  rw [enterCounter, get_bind] at h
  cases hf : g.find? counter with
  | none =>
    rw [hf] at h
    exact hown h
  | some slot =>
    rw [hf] at h
    dsimp only at h
    split at h
    · cases h
      exact .of_continues (.refl g) hg
    · exact hown h

end Gen

/-- The code of a loop with a number around that of its body. The label that `continue` leads
to stands before the condition, and in a `for` before the counter is stepped. -/
inductive Loop.Spells (number : Nat) : Loop → List Instruction → List Instruction → Prop
  | whileLoop {condition span type test} : Coded (expression condition) type test →
    Spells number (.whileLoop condition span)
      (.label (.numbered .whileStart number) ::
        (test ++ type.jumpIfFalse (.numbered .whileEnd number)))
      [.jump (.numbered .whileStart number), .label (.numbered .whileEnd number)]
  | doWhile {condition span type test} : Coded (expression condition) type test →
    Spells number (.doWhile condition span) [.label (.numbered .doStart number)]
      (.label (.numbered .doCondition number) :: (test ++ (type.truthCode ++
        [.test .rax, .jumpIf .ne (.numbered .doStart number), .label (.numbered .doEnd number)])))
  | forLoop {counter range span slots copy bounds} :
    Coded (loopSlots range.span.start range) slots bounds →
    Spells number (.forLoop counter range span) (bounds ++ lapHead number slots copy)
      (lapTail number slots)

namespace Loop

variable {g g' : Generator} {body : Stmt}

/-- What is in a loop is generated as the body of the loop. -/
theorem run_inLoop {labels : LoopLabels} {x : Gen Unit} (h : inLoop labels x g = .ok () g') :
    ∃ h', x { g with loops := labels :: g.loops } = .ok () h' ∧
      g' = { h' with loops := h'.loops.tail } := by
  obtain ⟨_, _, ⟨⟩, h⟩ := bind_ok.mp h
  obtain ⟨_, h', hx, h⟩ := bind_ok.mp h
  cases h
  exact ⟨h', hx, rfl⟩

/-- Generation for a loop comes by its body. -/
theorem run_around (loop : Loop) (hg : g.Rooted)
    (h : statement (loop.around body) g = .ok () g') :
    ∃ (h h' : Generator) (head tail : List Instruction), loop.lead g = .ok () h ∧
      statement body h = .ok () h' ∧ h.code = g.code ++ head ∧ h'.Appends tail g' ∧
      loop.Spells (g.labels + 1) head tail ∧ h.loops = loop.labels (g.labels + 1) :: g.loops := by
  cases loop with
  | whileLoop condition span =>
    obtain ⟨_, _, ⟨⟩, h⟩ := bind_ok.mp h
    obtain ⟨_, _, ⟨⟩, h⟩ := bind_ok.mp h
    obtain ⟨type, g₁, h₁, h⟩ := bind_ok.mp h
    obtain ⟨_, _, ⟨⟩, h⟩ := bind_ok.mp h
    obtain ⟨_, g₂, hloop, h⟩ := bind_ok.mp h
    obtain ⟨h', hbody, rfl⟩ := run_inLoop hloop
    cases h
    obtain ⟨test, htest⟩ := continuing_expression condition _ _ _ (by exact hg) h₁
    have hhead := bind_of_ok (fun type : ValueType =>
      emit (type.jumpIfFalse (.numbered .whileEnd (g.labels + 1)))) h₁
    refine ⟨_, h', _, _, bind_of_ok _ hhead, hbody, ?_, ⟨rfl, List.prefix_rfl⟩,
      .whileLoop ⟨_, _, h₁, htest.code⟩, ?_⟩
    · exact Array.ext' (by simp [htest.code])
    · exact congrArg (_ :: ·) htest.loops
  | doWhile condition span =>
    obtain ⟨_, _, ⟨⟩, h⟩ := bind_ok.mp h
    obtain ⟨_, _, ⟨⟩, h⟩ := bind_ok.mp h
    obtain ⟨_, g₁, hloop, h⟩ := bind_ok.mp h
    obtain ⟨h', hbody, rfl⟩ := run_inLoop hloop
    obtain ⟨_, _, ⟨⟩, h⟩ := bind_ok.mp h
    obtain ⟨type, g₂, h₂, h⟩ := bind_ok.mp h
    cases h
    have hr : h'.Rooted := ((continuing_statement body).run (by exact hg) hbody).1
    obtain ⟨test, htest⟩ := continuing_expression condition _ _ _ (by exact hr) h₂
    refine ⟨_, h', _, _, rfl, hbody, rfl, ⟨?_, htest.strings⟩,
      .doWhile ⟨_, _, h₂, htest.code⟩, rfl⟩
    exact Array.ext' (by simp [htest.code])
  | forLoop counter range span =>
    obtain ⟨_, _, ⟨⟩, h⟩ := bind_ok.mp h
    obtain ⟨slots, g₁, h₁, h⟩ := bind_ok.mp h
    obtain ⟨bounds, hbounds⟩ := continuing_loopSlots _ range _ _ _ (by exact hg) h₁
    obtain ⟨copy, g₂, g₃, h₂, hlaps, hleave⟩ := run_enterCounter h
    have henter := reaches_enterCounter (hbounds.rooted (by exact hg)) h₂
    obtain ⟨_, _, ⟨⟩, hlaps⟩ := bind_ok.mp hlaps
    obtain ⟨_, _, hloop, hlaps⟩ := bind_ok.mp hlaps
    obtain ⟨h', hbody, rfl⟩ := run_inLoop hloop
    cases hlaps
    have hhead := (bind_of_ok (fun slots => do
      emit (lapHead (g.labels + 1) slots (← enterCounter counter))) h₁).trans (bind_of_ok _ h₂)
    refine ⟨_, h', bounds ++ lapHead (g.labels + 1) slots copy, lapTail (g.labels + 1) slots,
      bind_of_ok _ hhead, hbody, ?_, ?_,
      .forLoop ⟨_, _, h₁, hbounds.code⟩, ?_⟩
    · exact Array.ext' (by simp [hbounds.code, henter.code, lapHead])
    · exact ⟨hleave.code.trans Array.appendList_nil, hleave.strings⟩
    · exact congrArg (_ :: ·) (henter.loops.trans hbounds.loops)

theorem reaches_head {number : Nat} (loop : Loop) {h : Generator} (hg : g.Rooted)
    (hx : loop.head number g = .ok () h) : ∃ c, g.Reaches c [] h := by
  have hcontinuing : Continuing (loop.head number) → ∃ c, g.Reaches c [] h := by
    intro hl
    obtain ⟨c, hc⟩ := hl g () h hg hx
    exact ⟨c, .of_continues hc hg⟩
  cases loop with
  | whileLoop condition span =>
    exact hcontinuing ((continuing_label _).bind fun _ =>
      (continuing_expression condition).bind fun _ => continuing_jumpIfFalse _ _)
  | doWhile condition span => exact hcontinuing (continuing_label _)
  | forLoop counter range span =>
    obtain ⟨slots, g₁, h₁, hx⟩ := bind_ok.mp hx
    obtain ⟨copy, g₂, h₂, hx⟩ := bind_ok.mp hx
    cases hx
    obtain ⟨bounds, hbounds⟩ := continuing_loopSlots _ range g slots g₁ hg h₁
    have hentered := (Reaches.of_continues hbounds hg).trans
      (reaches_enterCounter (hbounds.rooted hg) h₂)
    have hlap : Balanced (lapHead number slots copy) :=
      .of_level (by simp [lapHead, Instruction.Level])
    exact ⟨_, hentered.trans (.of_continues (.emitted _ hlap) hentered.rooted)⟩

/-- The code in front of the body leads into the loop. -/
theorem reaches (loop : Loop) {h : Generator} (hg : g.Rooted) (hx : loop.lead g = .ok () h) :
    ∃ c, g.Reaches c [loop.labels (g.labels + 1)] h := by
  obtain ⟨_, _, ⟨⟩, hx⟩ := bind_ok.mp hx
  obtain ⟨_, g₁, h₁, hx⟩ := bind_ok.mp hx
  cases hx
  have hnumbered := Reaches.of_continues (.numbered g) hg
  obtain ⟨c, hc⟩ := loop.reaches_head hnumbered.rooted h₁
  exact ⟨_, (hnumbered.trans hc).trans (.looping hc.rooted _)⟩

end Loop

/-! ## Layers -/

namespace Layer

variable {i o : Part} {g g' h : Generator}

theorem passes_statement (l : Layer i .statement) {x : i.Tree} (hg : g.Rooted)
    (h : Runs .statement (l.fill x) g g') : l.Passes x g g' := by
  obtain ⟨cell, h⟩ := h
  have hplain : ∀ s, declared? s = none → housed cell s g = .ok () g' →
      statement s g = .ok () g' := by
    intro s hs h
    cases s with
    | declare => cases hs
    | _ => cases cell <;> exact h
  cases l with
  | initial name constant type span =>
    have hx : ∀ cell, (do
        emitDeclaration cell name constant type (← option (some x)) span.start) g = .ok () g' →
        (initial name constant type span).Passes x g g' := by
      intro cell h
      rw [option, bind_map_left] at h
      exact .of_first rfl hg (fun _ => continuing_emitDeclaration cell _ _ _ _ _) h
    cases cell with
    | none => exact hx none h
    | some cell => exact hx (some cell) h
  | assigned target operator span =>
    replace h := hplain _ rfl h
    rw [fill, statement, option, bind_map_left] at h
    exact .of_first rfl hg (fun _ => continuing_emitAssignment _ _ _ _) h
  | asStatement => exact .of_first rfl hg (fun _ => .pure _) (hplain _ rfl h)
  | printed newline span =>
    exact .of_first rfl hg (fun _ => continuing_emitPrint _ _) (hplain _ rfl h)
  | returned span => exact .of_first rfl hg (fun _ => continuing_emitReturn _) (hplain _ rfl h)
  | block span =>
    obtain ⟨_, _, ⟨⟩, h⟩ := bind_ok.mp (hplain _ rfl h)
    obtain ⟨_, h', hx, h⟩ := bind_ok.mp h
    cases h
    exact ⟨_, h', rfl, hx, [], .of_eq rfl rfl⟩
  | branchCondition thenBody elseBody span =>
    obtain ⟨_, _, ⟨⟩, h⟩ := bind_ok.mp (hplain _ rfl h)
    exact .of_first rfl (by exact hg) (fun _ => (continuing_jumpIfFalse _ _).bind fun _ =>
      (continuing_statement thenBody).bind fun _ => (continuing_jump _ _).bind fun _ =>
        (continuing_statementOption elseBody).bind fun _ => continuing_label _) h
  | branchThen condition elseBody span =>
    obtain ⟨_, _, ⟨⟩, h⟩ := bind_ok.mp (hplain _ rfl h)
    obtain ⟨type, g₁, h₁, h⟩ := bind_ok.mp h
    obtain ⟨_, _, ⟨⟩, h⟩ := bind_ok.mp h
    have hr : g₁.Rooted := ((continuing_expression condition).run (by exact hg) h₁).1
    obtain ⟨_, h', hx, hpost⟩ := (continuing_statement x).split (fun _ =>
      (continuing_jump _ _).bind fun _ => (continuing_statementOption elseBody).bind fun _ =>
        continuing_label _) (by exact hr) h
    exact ⟨_, h', (bind_of_ok _ h₁).trans rfl,
      ⟨none, (congrFun (housed_none x) _).trans hx⟩, hpost⟩
  | branchElse condition thenBody span =>
    obtain ⟨_, _, ⟨⟩, h⟩ := bind_ok.mp (hplain _ rfl h)
    obtain ⟨type, g₁, h₁, h⟩ := bind_ok.mp h
    obtain ⟨_, _, ⟨⟩, h⟩ := bind_ok.mp h
    obtain ⟨_, g₂, h₂, h⟩ := bind_ok.mp h
    obtain ⟨_, _, ⟨⟩, h⟩ := bind_ok.mp h
    have hr₁ : g₁.Rooted := ((continuing_expression condition).run (by exact hg) h₁).1
    have hr₂ : g₂.Rooted := ((continuing_statement thenBody).run (by exact hr₁) h₂).1
    obtain ⟨_, h', hx, hpost⟩ := (continuing_statement x).split (fun _ => continuing_label _)
      (by exact hr₂) h
    exact ⟨_, h', (bind_of_ok _ h₁).trans ((bind_of_ok _ h₂).trans rfl),
      ⟨none, (congrFun (housed_none x) _).trans hx⟩, hpost⟩
  | whileCondition body span =>
    obtain ⟨_, _, ⟨⟩, h⟩ := bind_ok.mp (hplain _ rfl h)
    obtain ⟨_, _, ⟨⟩, h⟩ := bind_ok.mp h
    exact .of_first rfl (by exact hg) (fun _ => (continuing_jumpIfFalse _ _).bind fun _ =>
      (continuing_inLoop _ (continuing_statement body)).bind fun _ => continuing_jump _ _) h
  | doCondition body span =>
    obtain ⟨_, _, ⟨⟩, h⟩ := bind_ok.mp (hplain _ rfl h)
    obtain ⟨_, _, ⟨⟩, h⟩ := bind_ok.mp h
    obtain ⟨_, g₁, h₁, h⟩ := bind_ok.mp h
    obtain ⟨_, _, ⟨⟩, h⟩ := bind_ok.mp h
    have hr : g₁.Rooted :=
      ((continuing_inLoop _ (continuing_statement body)).run (by exact hg) h₁).1
    exact .of_first ((bind_of_ok _ h₁).trans rfl) (by exact hr) (fun _ =>
      continuing_emit (List.forall_mem_append.mpr
        ⟨level_truthCode _, by simp [Instruction.Level]⟩)) h
  | forRange counter body span =>
    obtain ⟨_, _, ⟨⟩, h⟩ := bind_ok.mp (hplain _ rfl h)
    obtain ⟨slots, h', h₁, h⟩ := bind_ok.mp h
    have hr : h'.Rooted := ((continuing_loopSlots _ x).run (by exact hg) h₁).1
    exact ⟨_, h', rfl, ⟨_, slots, h₁⟩, run_laps_code body hr h⟩
  | loopBody loop =>
    replace h : statement (loop.around x) g = .ok () g' := hplain _ (by cases loop <;> rfl) h
    obtain ⟨h, h', -, tail, hlead, hx, -, hpost, -⟩ := loop.run_around hg h
    exact ⟨h, h', hlead, ⟨none, (congrFun (housed_none x) h).trans hx⟩, tail, hpost⟩

/-- Generation for a tree comes by every part right below it. -/
theorem passes (l : Layer i o) {x : i.Tree} (hg : g.Rooted) (hx : i.Nameless x)
    (h : Runs o (l.fill x) g g') : l.Passes x g g' := by
  cases o with
  | expression => exact passes_expression l hg hx h
  | range => exact passes_range l hg h
  | statement => exact passes_statement l hg h
  | body valued => exact passes_body l hg h

/-- What the code in front leads to: only in the body of a loop is there one more loop around. -/
theorem reaches (l : Layer i o) (hg : g.Rooted) (h' : l.lead g = .ok () h) :
    ∃ c ls, g.Reaches c ls h ∧ (l.Open → ls = []) := by
  have hcontinuing : Continuing l.lead → ∃ c ls, g.Reaches c ls h ∧ (l.Open → ls = []) := by
    intro hl
    obtain ⟨c, hc⟩ := hl g () h hg h'
    exact ⟨c, [], .of_continues hc hg, fun _ => rfl⟩
  cases l with
  | rightOperand operator left span =>
    exact hcontinuing ((continuing_expression left).bind fun _ =>
      (continuing_spill _).bind fun _ => .pure _)
  | argument callee before after span =>
    refine hcontinuing (.get_bind fun g => ?_)
    split
    · split
      · exact (continuing_stored _ _).bind fun _ => .pure _
      · exact continuing_discarded _
    · exact continuing_discarded _
  | upperBound start excludesStop descending step span
  | rangeUpper start excludesStop descending step span =>
    exact hcontinuing (continuing_kept fun _ => .pure _)
  | rangeStep start stop excludesStop descending span =>
    exact hcontinuing (continuing_kept fun _ => continuing_kept fun _ => .pure _)
  | run | block =>
    cases h'
    exact ⟨[], [], .pushed g, fun _ => rfl⟩
  | tail valued first => exact hcontinuing (continuing_statement first)
  | branchThen condition elseBody span =>
    exact hcontinuing (continuing_nextLabel.bind fun _ =>
      (continuing_expression condition).bind fun _ => continuing_jumpIfFalse _ _)
  | branchElse condition thenBody span =>
    exact hcontinuing (continuing_nextLabel.bind fun _ =>
      (continuing_expression condition).bind fun _ => (continuing_jumpIfFalse _ _).bind fun _ =>
        (continuing_statement thenBody).bind fun _ => continuing_jump _ _)
  | branchCondition | forRange =>
    exact hcontinuing (continuing_nextLabel.bind fun _ => .pure _)
  | whileCondition body span =>
    exact hcontinuing (continuing_nextLabel.bind fun _ => continuing_label _)
  | doCondition body span =>
    exact hcontinuing (continuing_nextLabel.bind fun _ => (continuing_label _).bind fun _ =>
      (continuing_inLoop _ (continuing_statement body)).bind fun _ => continuing_label _)
  | loopBody loop =>
    obtain ⟨c, hc⟩ := loop.reaches hg h'
    exact ⟨c, _, hc, fun hopen => hopen.elim⟩
  | _ => exact hcontinuing (.pure _)

end Layer

/-! ## Spots -/

section

variable {i : Part} {x : i.Tree}

/-- Generation for a tree comes by every spot in it. -/
theorem Spot.arrives (hx : i.Nameless x) : ∀ {o : Part} (spot : Spot i o) {g g' : Generator},
    g.Rooted → Runs o (spot.fill x) g g' →
    ∃ h h' c ls, spot.lead g = .ok () h ∧ g.Reaches c ls h ∧ (spot.Open → ls = []) ∧
      Runs i x h h' ∧ ∃ post, h'.Appends post g'
  | _, .here, g, g', hg, h =>
    ⟨g, g', [], [], rfl, .of_continues (.refl g) hg, fun _ => rfl, h, [],
      .of_eq rfl rfl⟩
  | _, .within layer spot, g, g', hg, h => by
    obtain ⟨k, k', hlead, hk, d, hd⟩ := layer.passes hg (spot.nameless hx) h
    obtain ⟨c, ls, hc, hopen⟩ := layer.reaches hg hlead
    obtain ⟨h, h', c', ms, hlead', hc', hopen', hx', post, hpost⟩ :=
      spot.arrives hx hc.rooted hk
    refine ⟨h, h', c ++ c', ms ++ ls, (bind_of_ok _ hlead).trans hlead', hc.trans hc',
      fun ho => ?_, hx', post ++ d, hpost.trans hd⟩
    rw [hopen ho.1, hopen' ho.2]
    rfl

/-- In a loop, generation comes by every spot of the body that is in no other loop. -/
theorem Loop.arrives (hx : i.Nameless x) (loop : Loop) {inner : Spot i .statement}
    (hinner : inner.Open) {g g' : Generator} (hg : g.Rooted)
    (h : statement (loop.around (inner.fill x)) g = .ok () g') :
    ∃ (h h' : Generator) (head inside behind tail : List Instruction),
      (do loop.lead; inner.lead) g = .ok () h ∧ Runs i x h h' ∧
      h.code = g.code ++ (head ++ inside) ∧ h'.Appends (behind ++ tail) g' ∧
      loop.Spells (g.labels + 1) head tail ∧
      h.loops = loop.labels (g.labels + 1) :: g.loops := by
  obtain ⟨k, k', head, tail, hlead, hbody, hhead, htail, hspells, hloops⟩ :=
    loop.run_around hg h
  obtain ⟨_, hreaches⟩ := loop.reaches hg hlead
  obtain ⟨h, h', inside, ls, hlead', hc, hopen, hx', behind, hbehind⟩ :=
    inner.arrives hx hreaches.rooted ⟨none, (congrFun (housed_none _) k).trans hbody⟩
  cases hopen hinner
  refine ⟨h, h', head, inside, behind, tail, (bind_of_ok _ hlead).trans hlead', hx', ?_,
    hbehind.trans htail, hspells, hc.loops.trans hloops⟩
  exact Array.ext' (by simp [hc.code, hhead])

end

end ScriptLang
