import ScriptLang.Proofs.Codegen.Stack

/-!
# Growing code

Generation only appends, and what it appends is balanced. What it was told from outside stays:
the functions it knows, the labels it may jump to, and how many scopes it is in.
-/

namespace ScriptLang

open Assembly

namespace Generator

variable {g g' g'' : Generator} {c d : List Instruction}

/-- From the first state to the second this code was appended, and strings to the pool. -/
structure Appends (g : Generator) (c : List Instruction) (g' : Generator) : Prop where
  code : g'.code = g.code ++ c
  strings : g.strings.toList <+: g'.strings.toList

/-- Without new code and strings. -/
theorem Appends.of_eq (hc : g'.code = g.code) (hs : g'.strings = g.strings) : g.Appends [] g' :=
  ⟨hc.trans Array.appendList_nil.symm, hs ▸ List.prefix_rfl⟩

theorem Appends.trans (h : g.Appends c g') (h' : g'.Appends d g'') : g.Appends (c ++ d) g'' where
  code := by
    rw [h'.code, h.code]
    exact Array.ext' (by simp)
  strings := h.strings.trans h'.strings

/-- What is appended stands behind the code in front. -/
theorem Appends.toList (h : g.Appends c g') : g'.code.toList = g.code.toList ++ c := by
  rw [h.code, Array.toList_appendList]

/-- From the first state to the second this code was appended, with the same scopes, loops
and functions around it. -/
structure Continues (g : Generator) (c : List Instruction) (g' : Generator) : Prop
    extends Appends g c g' where
  balanced : Balanced c
  signatures : g'.signatures = g.signatures
  depth : g'.frame.scopes.length = g.frame.scopes.length
  used : g.frame.used ≤ g'.frame.used
  labels : g.labels ≤ g'.labels
  loops : g'.loops = g.loops
  current : g'.current = g.current
  topLevelExit : g'.topLevelExit = g.topLevelExit

namespace Continues

theorem refl (g : Generator) : g.Continues [] g where
  toAppends := .of_eq rfl rfl
  balanced := .nil
  signatures := rfl
  depth := rfl
  used := Int.le_refl _
  labels := Nat.le_refl _
  loops := rfl
  current := rfl
  topLevelExit := rfl

theorem trans (h : g.Continues c g') (h' : g'.Continues d g'') : g.Continues (c ++ d) g'' where
  toAppends := h.toAppends.trans h'.toAppends
  balanced := h.balanced.append h'.balanced
  signatures := h'.signatures.trans h.signatures
  depth := h'.depth.trans h.depth
  used := Int.le_trans h.used h'.used
  labels := Nat.le_trans h.labels h'.labels
  loops := h'.loops.trans h.loops
  current := h'.current.trans h.current
  topLevelExit := h'.topLevelExit.trans h.topLevelExit

theorem emitted (g : Generator) (hc : Balanced c) :
    g.Continues c { g with code := g.code ++ c } :=
  { refl g with code := rfl, balanced := hc }

theorem numbered (g : Generator) : g.Continues [] { g with labels := g.labels + 1 } :=
  { refl g with labels := Nat.le_succ _ }

theorem rooted (h : g.Continues c g') (hg : g.Rooted) : g'.Rooted := by
  intro hnil
  have hd := h.depth
  rw [hnil] at hd
  exact hg (List.length_eq_zero_iff.mp hd.symm)

theorem of_before {s t : Stage} (h : s.Before t)
    (hc : t.generator.code = s.generator.code ++ c) (hb : Balanced c) :
    s.generator.Continues c t.generator where
  code := hc
  strings := h.strings
  balanced := hb
  signatures := h.signatures
  depth := h.depth
  used := h.used
  labels := h.labels
  loops := h.loops
  current := h.current
  topLevelExit := h.topLevelExit

end Continues

end Generator

namespace Gen

open Generator

variable {α β : Type} {g g' : Generator}

/-- If the computation gives a result in a state with a scope to declare in, it appends code. -/
def Continuing (x : Gen α) : Prop :=
  ∀ g a g', g.Rooted → x g = .ok a g' → ∃ c, g.Continues c g'

namespace Continuing

variable {x : Gen α} {f : α → Gen β}

theorem pure (a : α) : Continuing (Pure.pure a : Gen α) := by
  rintro g _ _ - ⟨⟩
  exact ⟨[], .refl g⟩

theorem bind (hx : Continuing x) (hf : ∀ a, Continuing (f a)) : Continuing (x >>= f) := by
  intro g b g'' hg h
  obtain ⟨a, g', hx', h⟩ := bind_ok.mp h
  obtain ⟨c, hc⟩ := hx g a g' hg hx'
  obtain ⟨d, hd⟩ := hf a g' b g'' (hc.rooted hg) h
  exact ⟨c ++ d, hc.trans hd⟩

theorem get_bind {f : Generator → Gen β} (h : ∀ g, Continuing (f g)) :
    Continuing (get >>= f) :=
  fun g b g' hg hx => h g g b g' hg hx

theorem of_shapes (cells : List Slot) {p : α → Stage → Prop}
    (h : ∀ g, ∃ allotted, Shapes cells p x ⟨g, allotted⟩) : Continuing x := by
  intro g a g' hg hx
  obtain ⟨allotted, hs⟩ := h g
  obtain ⟨c, _, hc, hm, -⟩ := hs hg a g' hx
  exact ⟨c, .of_before (hm.before hg) hc hm.balances⟩

/-- The code in front is kept. -/
theorem run (hx : Continuing x) (hg : g.Rooted) {a : α} (h : x g = .ok a g') :
    g'.Rooted ∧ ∃ c, g.Appends c g' := by
  obtain ⟨c, hc⟩ := hx g a g' hg h
  exact ⟨hc.rooted hg, c, hc.toAppends⟩

end Continuing

theorem continuing_emit {code : List Instruction} (h : ∀ i ∈ code, i.Level) :
    Continuing (emit code) := by
  rintro g _ _ - ⟨⟩
  exact ⟨code, .emitted g (.of_level h)⟩

theorem continuing_label (l : Label) : Continuing (emit [.label l]) :=
  continuing_emit (by simp [Instruction.Level])

theorem continuing_jump (l l' : Label) : Continuing (emit [.jump l, .label l']) :=
  continuing_emit (by simp [Instruction.Level])

theorem continuing_jumpIfFalse (type : ValueType) (l : Label) :
    Continuing (emit (type.jumpIfFalse l)) :=
  continuing_emit (level_jumpIfFalse type l)

theorem continuing_callCode (symbol : String) (slots : List Slot) :
    Continuing (emit (callCode symbol slots)) := by
  rintro g _ _ - ⟨⟩
  have h := Balanced.nil.call symbol slots
  rw [List.append_nil] at h
  exact ⟨_, .emitted g h⟩

theorem continuing_nextLabel : Continuing nextLabel := by
  rintro g _ _ - ⟨⟩
  exact ⟨[], .numbered g⟩

theorem continuing_spill (type : ValueType) : Continuing (spill type) :=
  .of_shapes [] fun _ => ⟨[], shapes_spill type⟩

/-- A declaration of a name takes a slot, and no code. -/
theorem continues_declare {name : String} {type : ValueType} {mutable : Bool} {slot : Slot}
    (h : declare name type mutable g = .ok slot g') : g.Continues [] g' := by
  cases h
  exact .of_before (s := ⟨g, []⟩) (.declaring _ name type mutable) Array.appendList_nil.symm .nil

theorem continuing_emitCoercion (source target : ValueType) (position : Position) :
    Continuing (emitCoercion source target position) :=
  .of_shapes [] fun _ => ⟨[], shapes_emitCoercion source target position⟩

theorem continuing_expression (e : Expr) : Continuing (expression e) :=
  .of_shapes [] fun _ => ⟨[], shapes_expression e _⟩

theorem continuing_option (e : Option Expr) : Continuing (option e) :=
  .of_shapes [] fun _ => ⟨[], shapes_option e _⟩

theorem continuing_statement (s : Stmt) : Continuing (statement s) :=
  .of_shapes [] fun _ => ⟨[], shapes_statement s _⟩

theorem continuing_statementOption (s : Option Stmt) : Continuing (statementOption s) :=
  .of_shapes [] fun _ => ⟨[], shapes_statementOption s _⟩

theorem continuing_statements (body : List Stmt) : Continuing (statements body) :=
  .of_shapes [] fun _ => ⟨[], shapes_statements body _⟩

theorem continuing_lastValue (body : List Stmt) : Continuing (lastValue body) :=
  .of_shapes [] fun _ => ⟨[], shapes_lastValue body _⟩

theorem continuing_discarded (es : List Expr) : Continuing (discarded es) :=
  .of_shapes [] fun _ => ⟨[], shapes_discarded es _⟩

theorem continuing_stored (es : List Expr) (ps : List Parameter) : Continuing (stored es ps) :=
  .of_shapes [] fun _ => ⟨[], shapes_stored es ps _⟩

theorem continuing_loopStep (e : Option Expr) : Continuing (loopStep e) :=
  .of_shapes [] fun _ => ⟨[], shapes_loopStep e _⟩

theorem continuing_loopSlots (position : Position) (e : Expr) :
    Continuing (loopSlots position e) := by
  intro g slots g' hg h
  obtain ⟨t, u, c, d, hm, -, hm', -, -, -, rfl, hcode⟩ :=
    (bounds_loopSlots position e ⟨g, []⟩ : Bounds [] _ _) hg slots g' h
  have hb := (hm.before hg).trans (Stage.Before.handing t .integer .counter)
  exact ⟨_, .of_before (hb.trans (hm'.before (hb.rooted hg))) hcode
    ((hm.balances.append (.of_level (level_storeCode _))).append hm'.balances)⟩

theorem continuing_emitZero (type : ValueType) : Continuing (emitZero type) :=
  .of_shapes [] fun _ => ⟨[], shapes_emitZero type⟩

theorem continuing_emitFailedCall (cause : Cause) (type : ValueType) (position : Position) :
    Continuing (emitFailedCall cause type position) :=
  .of_shapes [] fun _ => ⟨[], shapes_emitFailedCall cause type position⟩

theorem continuing_emitBinary (operator : BinaryOperator) (left : Slot) (right : ValueType)
    (position : Position) : Continuing (emitBinary operator left right position) :=
  .of_shapes [] fun _ =>
    ⟨[⟨left, .temporary⟩], shapes_emitBinary operator List.mem_cons_self right position⟩

theorem continuing_emitUnary (operator : UnaryOperator) (operand : ValueType)
    (position : Position) : Continuing (emitUnary operator operand position) :=
  .of_shapes [] fun _ => ⟨[], shapes_emitUnary operator operand position⟩

theorem continuing_emitDeclaration (cell : Option Slot) (name : String) (constant : Bool)
    (type : Option DeclaredType) (value : Option ValueType) (position : Position) :
    Continuing (emitDeclaration cell name constant type value position) :=
  .of_shapes cell.toList fun _ =>
    ⟨[], shapes_emitDeclaration cell (fun _ h => Option.mem_toList.mpr h) name constant type value
      position⟩

theorem continuing_emitAssignment (target : String) (operator : AssignOperator)
    (value : Option ValueType) (position : Position) :
    Continuing (emitAssignment target operator value position) :=
  .of_shapes [] fun _ => ⟨[], shapes_emitAssignment target operator value position⟩

theorem continuing_emitPrint (type : ValueType) (newline : Bool) :
    Continuing (emitPrint type newline) :=
  .of_shapes [] fun _ => ⟨[], shapes_emitPrint type newline⟩

theorem continuing_emitReturn (value : Option (ValueType × Position)) :
    Continuing (emitReturn value) :=
  .of_shapes [] fun _ => ⟨[], shapes_emitReturn value⟩

theorem continuing_inLoop {x : Gen Unit} (labels : LoopLabels) (hx : Continuing x) :
    Continuing (inLoop labels x) := by
  intro g a g' hg h
  obtain ⟨_, _, ⟨⟩, h⟩ := bind_ok.mp h
  obtain ⟨_, h', hx', h⟩ := bind_ok.mp h
  cases h
  obtain ⟨c, hc⟩ := hx _ _ _ (by exact hg) hx'
  exact ⟨c, { hc with loops := congrArg List.tail hc.loops }⟩

/-- The laps of a `for` are appended to the code in front. -/
theorem run_laps_code {number : Nat} {slots : LoopSlots} {counter : String} (body : Stmt)
    (hg : g.Rooted)
    (h : withCounter counter (emitLaps number slots (statement body)) g = .ok () g') :
    ∃ c, g.Appends c g' := by
  have hbody : ∀ t, Shaped [] (statement body) t := shapes_statement body
  obtain ⟨copy, t, u, leave, e, hcounts, hm, rfl, hcode⟩ :=
    laps_withCounter (s := ⟨g, []⟩) hbody number slots counter hg h
  refine ⟨lapHead number slots copy ++ e ++ lapTail number slots,
    Array.ext' (by simp [Stage.emitting, hcode]), ?_⟩
  have hstrings := (hm.before (hcounts.rooted hg)).strings
  cases hcounts <;> exact hstrings

theorem continuing_receiveParameters (ps : List Parameter) (passages : List Passage) :
    Continuing (receiveParameters ps passages) :=
  .of_shapes [] fun _ => ⟨[], shapes_receiveParameters ps passages _⟩

end Gen

end ScriptLang
