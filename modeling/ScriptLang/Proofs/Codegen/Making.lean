import ScriptLang.Proofs.Assembly.Mention
import ScriptLang.Proofs.Codegen.Statement

/-!
# The shapes of generated code

Code is made of runs of plain instructions, of slots that are filled once, and of the
pieces that place labels: divisions, branches, loops and statements of the top level.
What is said of all code of a function is proved by induction on how it was made.

A stage adds to the state of the generator which slots were handed out, and for what.
-/

namespace ScriptLang

open Assembly

/-- The memory of the value in a slot. -/
def Slot.parts (s : Slot) : List Memory := if s.type = .range then [s.low, s.high] else [s.low]

/-- What a slot is handed out for. -/
inductive Purpose where
  | variable (name : String)
  /-- A value that is needed once more. -/
  | temporary
  /-- The counter of a `for`, which every lap steps. -/
  | counter
  deriving DecidableEq

/-- A slot that was handed out. -/
structure Allotment where
  slot : Slot
  purpose : Purpose
  deriving DecidableEq

structure Stage where
  generator : Generator
  /-- The slots handed out so far, latest first. -/
  allotted : List Allotment

namespace Generator

/-- Some name is bound to the slot. -/
def Names (g : Generator) (slot : Slot) : Prop :=
  (∃ scope ∈ g.frame.scopes, ∃ name, scope.find? name = some slot) ∨
    ∃ name, g.globals.find? name = some slot

/-- The labels that jumps out of the code in the making lead to. -/
inductive Exit (g : Generator) : Label → Prop
  | again {labels rest} : g.loops = labels :: rest → g.Exit labels.onContinue
  | done {labels rest} : g.loops = labels :: rest → g.Exit labels.onBreak
  | topLevel {l} : g.topLevelExit = some l → g.Exit l
  | epilogue : g.Exit g.epilogue
  | trap (t : Trap) : g.Exit (.trap t)

theorem Exit.congr {g g' : Generator} {l : Label} (h : g.Exit l) (hl : g'.loops = g.loops)
    (hc : g'.current = g.current) (ht : g'.topLevelExit = g.topLevelExit) : g'.Exit l := by
  cases h with
  | again he => exact .again (hl.trans he)
  | done he => exact .done (hl.trans he)
  | topLevel he => exact .topLevel (ht.trans he)
  | epilogue =>
    rw [show g.epilogue = g'.epilogue by
      rw [Generator.epilogue, Generator.epilogue, hc]]
    exact .epilogue
  | trap t => exact .trap t

/-- Constants, code and diagnostics may be added. -/
structure Pools (g g' : Generator) : Prop where
  signatures : g'.signatures = g.signatures
  globals : g'.globals = g.globals
  frame : g'.frame = g.frame
  labels : g'.labels = g.labels
  loops : g'.loops = g.loops
  current : g'.current = g.current
  topLevelExit : g'.topLevelExit = g.topLevelExit
  strings : g.strings.toList <+: g'.strings.toList
  floats : g.floats.toList <+: g'.floats.toList

end Generator

namespace Stage

/-- The slot has a name or was handed out without one. -/
def Holds (s : Stage) (slot : Slot) : Prop :=
  s.generator.Names slot ∨ ⟨slot, .temporary⟩ ∈ s.allotted

/-- The memory that code may name at this stage. -/
inductive Addresses (s : Stage) : Memory → Prop
  | part {slot m} : s.Holds slot → m ∈ slot.parts → s.Addresses m
  | argument (index : Nat) : s.Addresses (.frame (16 + 8 * index))
  | constant {index} : index < s.generator.floats.size → s.Addresses (.data (.float index) 0)
  | pointed (base : Register) : s.Addresses (.pointedBy base)

/-- The labels whose address code may take at this stage. -/
inductive Defines (s : Stage) : Label → Prop
  | string {index} : index < s.generator.strings.size → s.Defines (.string index)
  | format (f : Format) (newline : Bool) : s.Defines (.format f newline)
  | newline : s.Defines .newline
  | truth (b : Bool) : s.Defines (.truth b)

/-- An instruction that is not part of a larger piece. It writes to variables only. -/
structure Admits (s : Stage) (i : Instruction) : Prop where
  level : i.Level
  placed : i.placed? = none
  callee : i.callee? = none
  memories : ∀ m ∈ i.memories, s.Addresses m
  stores : ∀ m ∈ i.stores, ∃ slot, s.generator.Names slot ∧ m ∈ slot.parts
  taken : ∀ l ∈ i.taken?, s.Defines l
  target : ∀ l ∈ i.target?, s.generator.Exit l

/-- The number that the next statement or operator gives its labels. -/
def number (s : Stage) : Nat := s.generator.labels + 1

def numbered (s : Stage) : Stage :=
  { s with generator := { s.generator with labels := s.number } }

/-- The slot that is handed out next. -/
def fresh (s : Stage) (type : ValueType) : Slot := s.generator.frame.fresh type true

/-- Behind a slot without a name. -/
def handing (s : Stage) (type : ValueType) (purpose : Purpose) : Stage :=
  ⟨{ s.generator with frame := s.generator.frame.alloc type.size },
    ⟨s.fresh type, purpose⟩ :: s.allotted⟩

/-- Behind a slot with a name. -/
def declaring (s : Stage) (name : String) (type : ValueType) (mutable : Bool) : Stage :=
  ⟨{ s.generator with frame := (s.generator.frame.declare name type mutable).2 },
    ⟨s.generator.frame.fresh type mutable, .variable name⟩ :: s.allotted⟩

/-- Where a global name means another cell. -/
def rebinding (s : Stage) (name : String) (cell : Slot) : Stage :=
  { s with generator := { s.generator with globals := s.generator.globals.insert name cell } }

def pushed (s : Stage) : Stage := { s with generator := s.generator.pushed }

def popped (s : Stage) : Stage := { s with generator := s.generator.popped }

/-- In the body of a loop. -/
def looping (s : Stage) (labels : LoopLabels) : Stage :=
  { s with generator := { s.generator with loops := labels :: s.generator.loops } }

/-- Behind the body of a loop. -/
def looped (s : Stage) : Stage :=
  { s with generator := { s.generator with loops := s.generator.loops.tail } }

/-- With another end of the statement of the top level. -/
def exiting (s : Stage) (exit : Option Label) : Stage :=
  { s with generator := { s.generator with topLevelExit := exit } }

end Stage

namespace Gen

/-- The head of a lap: the end is checked, and the body gets a copy of the counter. -/
def lapHead (number : Nat) (slots : LoopSlots) (copy : Slot) : List Instruction :=
  [.label (.numbered .forStart number), .move (.memory slots.counter.low) (.register .rax),
    .compare (.memory slots.limit.low) .rax,
    .jumpIf slots.exitCondition (.numbered .forEnd number),
    .move (.register .rax) (.memory copy.low)]

/-- The end of a lap: the counter is stepped. -/
def lapTail (number : Nat) (slots : LoopSlots) : List Instruction :=
  [.label (.numbered .forNext number), .move (.memory slots.counter.low) (.register .rax),
    .integer (if slots.descending then .subtract else .add) (.memory slots.step.low) .rax,
    .jumpIf .o (.numbered .forEnd number), .move (.register .rax) (.memory slots.counter.low),
    .jump (.numbered .forStart number), .label (.numbered .forEnd number)]

end Gen

open Gen

/-- How a slot without a name gets its value. -/
inductive Slot.Fills (s : Slot) : List Instruction → Prop
  | result : s.Fills s.storeCode
  | constant (n : Int) : s.type = .integer → s.Fills [.move (.immediate n) (.memory s.low)]

/-- The variable that the body of a `for` sees, where it is known, and how to get out of
there: one that has a name already, or one in a scope of its own. -/
inductive CountsIn (s : Stage) : Slot → Stage → (Stage → Stage) → Prop
  | there {slot} : s.generator.Names slot → slot.type = .integer → CountsIn s slot s id
  | own (name : String) :
    CountsIn s (s.fresh .integer) (s.pushed.declaring name .integer true) Stage.popped

/-- From the first stage to the second this code was made, with these cells for globals. -/
inductive Makes (cells : List Slot) : Stage → List Instruction → Stage → Prop
  | plain {s g code} : s.generator.Pools g → (∀ i ∈ code, Stage.Admits ⟨g, s.allotted⟩ i) →
    Makes cells s code ⟨g, s.allotted⟩
  | append {s t u c d} : Makes cells s c t → Makes cells t d u → Makes cells s (c ++ d) u
  | fill {s type c} : (s.fresh type).Fills c → Makes cells s c (s.handing type .temporary)
  | declare {s} (name : String) (type : ValueType) (mutable : Bool) :
    Makes cells s [] (s.declaring name type mutable)
  | rebind {s cell} (name : String) : cell ∈ cells → Makes cells s [] (s.rebinding name cell)
  | scope {s t c} : Makes cells s.pushed c t → Makes cells s c t.popped
  | divide {s} {operator : Arithmetic} : operator.divides = true →
    Makes cells s (operator.integerCode s.number) s.numbered
  | call {s callee symbol f slots} :
    s.generator.signatures.find? callee = some ⟨symbol, f⟩ →
    (∀ slot ∈ slots, ⟨slot, .temporary⟩ ∈ s.allotted) → Makes cells s (callCode symbol slots) s
  | branch {s t u v c d e} {type : ValueType} : Makes cells s.numbered c t →
    Makes cells t d u → Makes cells u e v →
    Makes cells s (c ++ type.jumpIfFalse (.numbered .otherwise s.number) ++ d ++
      [.jump (.numbered .endIf s.number), .label (.numbered .otherwise s.number)] ++ e ++
      [.label (.numbered .endIf s.number)]) v
  | whileLoop {s t u c d} {type : ValueType} : Makes cells s.numbered c t →
    Makes cells
      (t.looping ⟨.numbered .whileStart s.number, .numbered .whileEnd s.number⟩) d u →
    Makes cells s ([.label (.numbered .whileStart s.number)] ++ c ++
      type.jumpIfFalse (.numbered .whileEnd s.number) ++ d ++
      [.jump (.numbered .whileStart s.number), .label (.numbered .whileEnd s.number)]) u.looped
  | doWhile {s t u c d} {type : ValueType} :
    Makes cells
      (s.numbered.looping ⟨.numbered .doCondition s.number, .numbered .doEnd s.number⟩) c t →
    Makes cells t.looped d u →
    Makes cells s ([.label (.numbered .doStart s.number)] ++ c ++
      [.label (.numbered .doCondition s.number)] ++ d ++ (type.truthCode ++
      [.test .rax, .jumpIf .ne (.numbered .doStart s.number),
        .label (.numbered .doEnd s.number)])) u
  | forLoop {s t u v w c d e copy leave} {slots : LoopSlots} : Makes cells s.numbered c t →
    slots.counter = t.fresh .integer → Makes cells (t.handing .integer .counter) d u →
    ⟨slots.limit, .temporary⟩ ∈ u.allotted → ⟨slots.step, .temporary⟩ ∈ u.allotted →
    CountsIn u copy v leave →
    Makes cells (v.looping ⟨.numbered .forNext s.number, .numbered .forEnd s.number⟩) e w →
    Makes cells s (c ++ slots.counter.storeCode ++ d ++ lapHead s.number slots copy ++ e ++
      lapTail s.number slots) (leave w.looped)
  | topLevel {s t c} :
    Makes cells (s.numbered.exiting (some (.numbered .topEnd s.number))) c t →
    Makes cells s (c ++ [.label (.numbered .topEnd s.number)])
      (t.exiting s.generator.topLevelExit)

/-- What of one stage is still so at a later one. -/
structure Stage.Before (s t : Stage) : Prop where
  signatures : t.generator.signatures = s.generator.signatures
  depth : t.generator.frame.scopes.length = s.generator.frame.scopes.length
  used : s.generator.frame.used ≤ t.generator.frame.used
  labels : s.generator.labels ≤ t.generator.labels
  loops : t.generator.loops = s.generator.loops
  current : t.generator.current = s.generator.current
  topLevelExit : t.generator.topLevelExit = s.generator.topLevelExit
  strings : s.generator.strings.toList <+: t.generator.strings.toList
  floats : s.generator.floats.toList <+: t.generator.floats.toList
  allotted : s.allotted <:+ t.allotted

namespace Stage.Before

variable {s t u : Stage}

theorem refl (s : Stage) : s.Before s where
  signatures := rfl
  depth := rfl
  used := Int.le_refl _
  labels := Nat.le_refl _
  loops := rfl
  current := rfl
  topLevelExit := rfl
  strings := List.prefix_rfl
  floats := List.prefix_rfl
  allotted := List.suffix_rfl

theorem trans (h : s.Before t) (h' : t.Before u) : s.Before u where
  signatures := h'.signatures.trans h.signatures
  depth := h'.depth.trans h.depth
  used := Int.le_trans h.used h'.used
  labels := Nat.le_trans h.labels h'.labels
  loops := h'.loops.trans h.loops
  current := h'.current.trans h.current
  topLevelExit := h'.topLevelExit.trans h.topLevelExit
  strings := h.strings.trans h'.strings
  floats := h.floats.trans h'.floats
  allotted := h.allotted.trans h'.allotted

theorem rooted (h : s.Before t) (hs : s.generator.Rooted) : t.generator.Rooted := by
  intro hnil
  have hd := h.depth
  rw [hnil] at hd
  exact hs (List.length_eq_zero_iff.mp hd.symm)

theorem pools {s : Stage} {g : Generator} (h : s.generator.Pools g) :
    s.Before ⟨g, s.allotted⟩ where
  signatures := h.signatures
  depth := by rw [h.frame]
  used := Int.le_of_eq (by rw [h.frame])
  labels := Nat.le_of_eq h.labels.symm
  loops := h.loops
  current := h.current
  topLevelExit := h.topLevelExit
  strings := h.strings
  floats := h.floats
  allotted := List.suffix_rfl

/-- Slots are taken, and names bound in the scopes that are there. -/
theorem framed {frame : Frame} {allotted : List Allotment}
    (hd : frame.scopes.length = s.generator.frame.scopes.length)
    (hu : s.generator.frame.used ≤ frame.used) (ha : s.allotted <:+ allotted) :
    s.Before ⟨{ s.generator with frame }, allotted⟩ :=
  { refl s with depth := hd, used := hu, allotted := ha }

theorem handing (s : Stage) (type : ValueType) (purpose : Purpose) :
    s.Before (s.handing type purpose) :=
  framed rfl (Int.le_add_of_nonneg_right (Int.natCast_nonneg _)) (List.suffix_cons _ _)

theorem declaring (s : Stage) (name : String) (type : ValueType) (mutable : Bool) :
    s.Before (s.declaring name type mutable) := by
  refine framed ?_ ?_ (List.suffix_cons _ _)
  · unfold Frame.declare Frame.bind Frame.alloc
    dsimp only
    split <;> simp_all
  · unfold Frame.declare Frame.bind Frame.alloc
    dsimp only
    split <;> exact Int.le_add_of_nonneg_right (Int.natCast_nonneg _)

theorem numbered (s : Stage) : s.Before s.numbered :=
  { refl s with labels := Nat.le_succ _ }

theorem popped (hs : s.generator.Rooted) (h : s.pushed.Before t) : s.Before t.popped := by
  have hd : t.generator.frame.scopes.length = s.generator.frame.scopes.length + 1 := h.depth
  have hpos := List.length_pos_iff.mpr hs
  refine ⟨h.signatures, ?_, ?_, h.labels, h.loops, h.current, h.topLevelExit, h.strings, h.floats,
    h.allotted⟩
  · change t.generator.frame.pop.scopes.length = _
    unfold Frame.pop
    split
    · simp_all
    · next hne =>
      match hsc : t.generator.frame.scopes with
      | [] | [_] =>
        simp only [hsc, List.length_nil, List.length_singleton] at hd
        omega
      | _ :: _ :: _ => exact absurd hsc (hne _ _ _)
  · change _ ≤ t.generator.frame.pop.used
    unfold Frame.pop
    split <;> exact h.used

theorem looped {labels : LoopLabels} (h : (s.looping labels).Before t) : s.Before t.looped :=
  { h with loops := congrArg List.tail h.loops }

theorem exited {exit : Option Label} (h : (s.exiting exit).Before t) :
    s.Before (t.exiting s.generator.topLevelExit) :=
  { h with topLevelExit := rfl }

end Stage.Before

theorem CountsIn.before {s t u : Stage} {slot : Slot} {leave : Stage → Stage}
    (h : CountsIn s slot t leave) (hs : s.generator.Rooted) (ht : t.Before u) :
    s.Before (leave u) := by
  cases h with
  | there => exact ht
  | own name => exact .popped hs ((Stage.Before.declaring _ _ _ _).trans ht)

theorem CountsIn.rooted {s t : Stage} {slot : Slot} {leave : Stage → Stage}
    (h : CountsIn s slot t leave) (hs : s.generator.Rooted) : t.generator.Rooted := by
  cases h with
  | there => exact hs
  | own name => exact (Stage.Before.declaring _ _ _ _).rooted (List.cons_ne_nil _ _)

theorem Makes.before {cells : List Slot} {s t : Stage} {c : List Instruction}
    (h : Makes cells s c t) (hs : s.generator.Rooted) : s.Before t := by
  induction h with
  | plain h _ => exact .pools h
  | append _ _ ih ih' => exact (ih hs).trans (ih' ((ih hs).rooted hs))
  | fill _ => exact .handing _ _ _
  | declare name type mutable => exact .declaring _ name type mutable
  | rebind name _ => exact { Stage.Before.refl _ with }
  | scope _ ih => exact .popped hs (ih (List.cons_ne_nil _ _))
  | divide _ => exact .numbered _
  | call _ _ => exact .refl _
  | branch _ _ _ ih₁ ih₂ ih₃ =>
    have h₁ := (Stage.Before.numbered _).trans (ih₁ hs)
    have h₂ := h₁.trans (ih₂ (h₁.rooted hs))
    exact h₂.trans (ih₃ (h₂.rooted hs))
  | whileLoop _ _ ih₁ ih₂ =>
    have h₁ := (Stage.Before.numbered _).trans (ih₁ hs)
    exact h₁.trans (.looped (ih₂ (h₁.rooted hs)))
  | doWhile _ _ ih₁ ih₂ =>
    have h₁ := (Stage.Before.numbered _).trans (.looped (ih₁ hs))
    exact h₁.trans (ih₂ (h₁.rooted hs))
  | forLoop _ _ _ _ _ hc _ ih₁ ih₂ ih₃ =>
    have h₁ := (Stage.Before.numbered _).trans (ih₁ hs)
    have h₂ := h₁.trans (Stage.Before.handing _ .integer .counter)
    have h₂ := h₂.trans (ih₂ (h₂.rooted hs))
    exact h₂.trans (hc.before (h₂.rooted hs) (.looped (ih₃ (hc.rooted (h₂.rooted hs)))))
  | topLevel _ ih => exact (Stage.Before.numbered _).trans (.exited (ih hs))

/-- A name that means a global means one ever after. -/
theorem Makes.keepsGlobal {cells : List Slot} {s t : Stage} {c : List Instruction}
    (h : Makes cells s c t) {name : String}
    (hn : (s.generator.globals.find? name).isSome = true) :
    (t.generator.globals.find? name).isSome = true := by
  induction h with
  | plain hp _ => rwa [hp.globals]
  | append _ _ ih ih' => exact ih' (ih hn)
  | rebind other _ =>
    change ((NameMap.insert _ other _).find? name).isSome = true
    rw [NameMap.find?_insert]
    split
    · rfl
    · exact hn
  | fill _ | declare _ _ _ | divide _ | call _ _ => exact hn
  | scope _ ih | topLevel _ ih => exact ih hn
  | branch _ _ _ ih₁ ih₂ ih₃ => exact ih₃ (ih₂ (ih₁ hn))
  | whileLoop _ _ ih₁ ih₂ | doWhile _ _ ih₁ ih₂ => exact ih₂ (ih₁ hn)
  | forLoop _ _ _ _ _ hc _ ih₁ ih₂ ih₃ =>
    cases hc with
    | there | own => exact ih₃ (ih₂ (ih₁ hn))

section

variable {cells : List Slot} {s t u v w : Stage} {c d e : List Instruction}

/-- The parts of a branch are made one behind the other. -/
theorem Makes.branch_stages (hs : s.generator.Rooted) (h₁ : Makes cells s.numbered c t)
    (h₂ : Makes cells t d u) (h₃ : Makes cells u e v) :
    s.numbered.Before t ∧ t.generator.Rooted ∧ t.Before u ∧ u.generator.Rooted ∧ u.Before v := by
  have b₁ : s.numbered.Before t := h₁.before hs
  have hr₁ := b₁.rooted hs
  have b₂ := h₂.before hr₁
  have hr₂ := b₂.rooted hr₁
  exact ⟨b₁, hr₁, b₂, hr₂, h₃.before hr₂⟩

/-- The parts of a `for` are made one behind the other. -/
theorem Makes.forLoop_stages {copy : Slot} {leave : Stage → Stage} {labels : LoopLabels}
    (hs : s.generator.Rooted) (h₁ : Makes cells s.numbered c t)
    (h₂ : Makes cells (t.handing .integer .counter) d u) (hc : CountsIn u copy v leave)
    (h₃ : Makes cells (v.looping labels) e w) :
    s.numbered.Before (t.handing .integer .counter) ∧ t.generator.Rooted ∧
      (t.handing .integer .counter).Before u ∧ u.generator.Rooted ∧ v.generator.Rooted ∧
      v.Before w.looped ∧ u.Before (leave w.looped) := by
  have b₁ := (h₁.before hs).trans (Stage.Before.handing t .integer .counter)
  have hr₁ : t.generator.Rooted := b₁.rooted hs
  have b₂ := h₂.before hr₁
  have hr₂ := b₂.rooted hr₁
  have hr₃ := hc.rooted hr₂
  have b₃ := Stage.Before.looped (h₃.before hr₃)
  exact ⟨b₁, hr₁, b₂, hr₂, hr₃, b₃, hc.before hr₂ b₃⟩

end

end ScriptLang
