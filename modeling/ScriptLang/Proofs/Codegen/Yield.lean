import ScriptLang.Codegen.Operation
import ScriptLang.Proofs.Computation

/-!
# What generation leaves as it was

Code for conversions and operators takes unnamed slots, constants and labels. It
never fails, and names, loops and the function in the making stay what they were.
-/

namespace ScriptLang

namespace Generator

open Assembly

/-- From the first state to the second these faults were reported; names and the places
jumps lead to are the same. -/
structure Adds (ds : List Fault) (g g' : Generator) : Prop where
  signatures : g'.signatures = g.signatures
  globals : g'.globals = g.globals
  scopes : g'.frame.scopes = g.frame.scopes
  loops : g'.loops = g.loops
  current : g'.current = g.current
  topLevelExit : g'.topLevelExit = g.topLevelExit
  diagnostics : g'.diagnostics = g.diagnostics ++ ds

namespace Adds

variable {g g' g'' : Generator} {ds es : List Fault}

theorem refl (g : Generator) : Adds [] g g :=
  ⟨rfl, rfl, rfl, rfl, rfl, rfl, (List.append_nil _).symm⟩

theorem trans (h : Adds ds g g') (h' : Adds es g' g'') : Adds (ds ++ es) g g'' where
  signatures := h'.signatures.trans h.signatures
  globals := h'.globals.trans h.globals
  scopes := h'.scopes.trans h.scopes
  loops := h'.loops.trans h.loops
  current := h'.current.trans h.current
  topLevelExit := h'.topLevelExit.trans h.topLevelExit
  diagnostics := by rw [h'.diagnostics, h.diagnostics, List.append_assoc]

/-- Code, constants, labels and unnamed slots may come and go. -/
theorem unnamed (g : Generator) (code : Array Instruction) (strings : Array String)
    (floats : Array UInt64) (labels : Nat) (used : Int) :
    Adds [] g { g with code, strings, floats, labels, frame := { g.frame with used } } :=
  ⟨rfl, rfl, rfl, rfl, rfl, rfl, (List.append_nil _).symm⟩

theorem find? (h : Adds ds g g') (name : String) : g'.find? name = g.find? name := by
  rw [Generator.find?, Generator.find?, Frame.find?, Frame.find?, h.scopes, h.globals]

end Adds

end Generator

namespace Gen

open Assembly

variable {α β : Type} {p : α → Prop} {q : β → Prop} {ds es : List Fault} {g : Generator}

/-- In a state, the computation gives a result with a property and adds these faults. -/
def Yields (p : α → Prop) (ds : List Fault) (x : Gen α) (g : Generator) : Prop :=
  ∃ a g', x g = .ok a g' ∧ p a ∧ g.Adds ds g'

namespace Yields

theorem pure {a : α} (h : p a) : Yields p [] (Pure.pure a) g :=
  ⟨a, g, rfl, h, .refl g⟩

theorem weaken {r : α → Prop} {x : Gen α} (h : ∀ a, p a → r a) (hx : Yields p ds x g) :
    Yields r ds x g := by
  obtain ⟨a, g', hx, ha, hg⟩ := hx
  exact ⟨a, g', hx, h a ha, hg⟩

theorem bind {x : Gen α} {f : α → Gen β} (hx : Yields p ds x g)
    (hf : ∀ a g', p a → g.Adds ds g' → Yields q es (f a) g') :
    Yields q (ds ++ es) (x >>= f) g := by
  obtain ⟨a, g', hx, ha, hg⟩ := hx
  obtain ⟨b, g'', hf, hb, hg'⟩ := hf a g' ha hg
  exact ⟨b, g'', by rw [bind_of_ok f hx, hf], hb, hg.trans hg'⟩

/-- What comes first reports nothing. -/
theorem follow {x : Gen α} {f : α → Gen β} (hx : Yields p [] x g)
    (hf : ∀ a g', p a → g.Adds [] g' → Yields q ds (f a) g') : Yields q ds (x >>= f) g :=
  bind hx hf

/-- What comes last reports nothing. -/
theorem finish {x : Gen α} {f : α → Gen β} (hx : Yields p ds x g)
    (hf : ∀ a g', p a → g.Adds ds g' → Yields q [] (f a) g') : Yields q ds (x >>= f) g := by
  have h := bind hx hf
  rwa [List.append_nil] at h

theorem modified {f : Generator → Generator} (h : g.Adds ds (f g)) :
    Yields (fun _ => True) ds (modify f) g :=
  ⟨(), f g, rfl, trivial, h⟩

end Yields

/-- Whatever the state, the computation ends with nothing reported. -/
def Quiet (x : Gen α) : Prop := ∀ g, Yields (fun _ => True) [] x g

namespace Quiet

theorem pure (a : α) : Quiet (Pure.pure a : Gen α) := fun _ => .pure trivial

theorem bind {x : Gen α} {f : α → Gen β} (hx : Quiet x) (hf : ∀ a, Quiet (f a)) :
    Quiet (x >>= f) := fun g => Yields.bind (hx g) fun a g' _ _ => hf a g'

theorem bindGet {f : Generator → Gen β} (hf : ∀ g, Quiet (f g)) : Quiet (get >>= f) :=
  fun g => hf g g

theorem modified {f : Generator → Generator} (h : ∀ g : Generator, g.Adds [] (f g)) :
    Quiet (modify f) := fun g => Yields.modified (h g)

/-- A result follows quiet work. -/
theorem yields {x : Gen α} {f : α → Gen β} (hx : Quiet x)
    (hf : ∀ a g', Yields q ds (f a) g') : Yields q ds (x >>= f) g :=
  Yields.bind (hx g) fun a g' _ _ => hf a g'

end Quiet

theorem quiet_emit (code : List Instruction) : Quiet (emit code) :=
  .modified fun g => .unnamed g ..

theorem quiet_nextLabel : Quiet nextLabel :=
  .bind (.modified fun g => .unnamed g ..) fun _ => .bindGet fun _ => .pure _

theorem yields_report (cause : Cause) (position : Position) (g : Generator) :
    Yields (fun _ => True) [⟨cause, position⟩] (report cause position) g :=
  .modified ⟨rfl, rfl, rfl, rfl, rfl, rfl, rfl⟩

theorem quiet_internString (s : String) : Quiet (internString s) := by
  refine .bindGet fun g => ?_
  dsimp only
  cases g.strings.idxOf? s with
  | none => exact .bind (.modified fun g => .unnamed g ..) fun _ => .pure _
  | some i => exact .pure _

theorem quiet_internFloat (bits : UInt64) : Quiet (internFloat bits) := by
  refine .bindGet fun g => ?_
  dsimp only
  cases g.floats.idxOf? bits with
  | none => exact .bind (.modified fun g => .unnamed g ..) fun _ => .pure _
  | some i => exact .pure _

theorem yields_temporary (type : ValueType) (g : Generator) :
    Yields (fun slot => slot.type = type) [] (temporary type) g :=
  ⟨_, _, rfl, rfl, .unnamed g ..⟩

/-- What is spilled keeps its type. -/
theorem yields_spill (type : ValueType) (g : Generator) :
    Yields (fun slot => slot.type = type) [] (spill type) g :=
  .bind (yields_temporary type g) fun slot _ h _ =>
    (quiet_emit slot.storeCode).yields fun _ _ => .pure h

theorem quiet_temporary (type : ValueType) : Quiet (temporary type) := fun g =>
  (yields_temporary type g).weaken fun _ _ => trivial

end Gen

end ScriptLang
