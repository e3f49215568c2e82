import ScriptLang.Proofs.Codegen.Making.Statement

/-!
# What code extends

What is generated adds names to the innermost scope at most. Scopes and loops that it enters it
leaves, and the function and the end of the statement in the making stay what they are. Only a
declaration that has a cell makes a global name mean something else.
-/

namespace ScriptLang

open Assembly Gen

namespace Generator

variable {g g' : Generator}

theorem Extends.refl (g : Generator) : g.Extends g := ⟨rfl, rfl, rfl, rfl, rfl, rfl, rfl⟩

/-- A scope of its own is left. -/
theorem Extends.leave (hg : g.Rooted) (h : g.pushed.Extends g') : g.Extends g'.popped where
  signatures := h.signatures
  globals := h.globals
  depth := congrArg List.length (h.popped hg)
  outer := congrArg List.tail (h.popped hg)
  loops := h.loops
  current := h.current
  topLevelExit := h.topLevelExit

end Generator

namespace Stage

variable {s t : Stage}

theorem extends_numbered (s : Stage) : s.generator.Extends s.numbered.generator :=
  ⟨rfl, rfl, rfl, rfl, rfl, rfl, rfl⟩

theorem extends_handing (s : Stage) (type : ValueType) (purpose : Purpose) :
    s.generator.Extends (s.handing type purpose).generator :=
  ⟨rfl, rfl, rfl, rfl, rfl, rfl, rfl⟩

theorem extends_declaring (s : Stage) (name : String) (type : ValueType) (mutable : Bool) :
    s.generator.Extends (s.declaring name type mutable).generator := by
  obtain ⟨⟨_, _, ⟨scopes, _⟩, _, _, _, _, _, _, _, _⟩, _⟩ := s
  cases scopes <;> exact ⟨rfl, rfl, rfl, rfl, rfl, rfl, rfl⟩

theorem extends_looped {labels : LoopLabels}
    (h : (s.looping labels).generator.Extends t.generator) :
    s.generator.Extends t.looped.generator :=
  ⟨h.signatures, h.globals, h.depth, h.outer, congrArg List.tail h.loops, h.current,
    h.topLevelExit⟩

end Stage

theorem CountsIn.extends {s t u : Stage} {slot : Slot} {leave : Stage → Stage}
    (h : CountsIn s slot t leave) (hs : s.generator.Rooted)
    (ht : t.generator.Extends u.generator) : s.generator.Extends (leave u).generator := by
  cases h with
  | there => exact ht
  | own name => exact .leave hs ((Stage.extends_declaring s.pushed _ _ _).trans ht)

/-- With no cells at hand, what is made is a matter of the innermost scope. -/
theorem Makes.extends {s t : Stage} {c : List Instruction} (h : Makes [] s c t)
    (hs : s.generator.Rooted) : s.generator.Extends t.generator := by
  induction h with
  | plain h _ =>
    exact ⟨h.signatures, h.globals, by rw [h.frame], by rw [h.frame], h.loops, h.current,
      h.topLevelExit⟩
  | append _ _ ih ih' => exact (ih hs).trans (ih' ((ih hs).rooted hs))
  | rebind _ hcell => cases hcell  -- There are no cells.
  | declare name type mutable => exact Stage.extends_declaring _ name type mutable
  | fill _ => exact Stage.extends_handing _ _ _
  | divide _ => exact Stage.extends_numbered _
  | call _ _ => exact .refl _
  | scope _ ih => exact .leave hs (ih (List.cons_ne_nil _ _))
  | branch _ _ _ ih₁ ih₂ ih₃ =>
    have h₁ := (Stage.extends_numbered _).trans (ih₁ hs)
    have h₂ := h₁.trans (ih₂ (h₁.rooted hs))
    exact h₂.trans (ih₃ (h₂.rooted hs))
  | whileLoop _ _ ih₁ ih₂ =>
    have h₁ := (Stage.extends_numbered _).trans (ih₁ hs)
    exact h₁.trans (Stage.extends_looped (ih₂ (h₁.rooted hs)))
  | doWhile _ _ ih₁ ih₂ =>
    have h₁ := (Stage.extends_numbered _).trans (Stage.extends_looped (ih₁ hs))
    exact h₁.trans (ih₂ (h₁.rooted hs))
  | forLoop _ _ _ _ _ hc _ ih₁ ih₂ ih₃ =>
    have h₁ := (Stage.extends_numbered _).trans (ih₁ hs)
    have h₂ := h₁.trans (Stage.extends_handing _ .integer .counter)
    have h₂ := h₂.trans (ih₂ (h₂.rooted hs))
    have h₃ := Stage.extends_looped (ih₃ (hc.rooted (h₂.rooted hs)))
    exact h₂.trans (hc.extends (h₂.rooted hs) h₃)
  | topLevel _ ih =>
    -- The end that the statement had while it was made gives way to the one before it.
    exact { ih hs with topLevelExit := rfl }

namespace Generator

variable {α : Type} {p : α → Stage → Prop} {x : Gen α} {g g' : Generator} {a : α}

theorem Extends.of_shapes (hx : Shapes [] p x ⟨g, []⟩) (hg : g.Rooted) (h : x g = .ok a g') :
    g.Extends g' := by
  obtain ⟨c, _, -, hm, -⟩ := hx hg a g' h
  exact hm.extends hg

/-- Global names may change on both sides. -/
theorem Extends.rebound (h : g.Extends g') (f : NameMap Slot → NameMap Slot) :
    { g with globals := f g.globals }.Extends { g' with globals := f g'.globals } :=
  { h with globals := congrArg f h.globals }

end Generator

namespace Gen

open Generator

variable {g g' : Generator}

theorem extends_emitDeclaration {cell : Slot} {name : String} {constant : Bool}
    {type : Option DeclaredType} {value : Option ValueType} {position : Position}
    (hg : g.Rooted)
    (h : emitDeclaration (some cell) name constant type value position g = .ok () g') :
    { g with globals := g.globals.insert name cell }.Extends g' := by
  obtain ⟨_, _, ⟨⟩, h⟩ := bind_ok.mp h
  have hnamed : Names { g with globals := g.globals.insert name cell } cell :=
    .inr ⟨name, (NameMap.find?_insert _ _ _ _).trans (if_pos rfl)⟩
  exact .of_shapes (shapes_storeInitial (s := ⟨_, []⟩) hnamed value position) hg h

end Gen

end ScriptLang
