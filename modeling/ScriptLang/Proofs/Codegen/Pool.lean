import ScriptLang.Proofs.Codegen.Parallel

/-!
# Drawing on the pool of floats

Where the constants it comes to are in the pool already, a computation adds none, however it
ends. Each instruction it appends that names one is there for a reason, told by where the
instruction stands. Jumps lead to labels of the code, so none of them names a float either.
-/

namespace ScriptLang

open Assembly

namespace Assembly

/-- The code names no float of the pool. -/
def Floatless (c : List Instruction) : Prop := ∀ i ∈ c, ∀ n, Label.float n ∉ i.labels

section

variable {i : Instruction} {c d : List Instruction} {b : Prop} [Decidable b]

@[simp] theorem floatless_nil : Floatless [] := List.forall_mem_nil _

@[simp] theorem floatless_cons :
    Floatless (i :: c) ↔ (∀ n, Label.float n ∉ i.labels) ∧ Floatless c := List.forall_mem_cons

@[simp] theorem floatless_append : Floatless (c ++ d) ↔ Floatless c ∧ Floatless d :=
  List.forall_mem_append

theorem FixedCode.floatless (h : FixedCode c) : Floatless c := fun i hi n hn => by
  cases Instruction.isFixed_of_mem_labels (h i hi) hn

theorem floatless_label {l : Label} (h : ∀ n, l ≠ .float n) : Floatless [.label l] := by
  simpa [Instruction.labels, Instruction.references] using fun n => (h n).symm

theorem floatless_jump {l : Label} (h : ∀ n, l ≠ .float n) : Floatless [.jump l] := by
  simpa [Instruction.labels, Instruction.references] using fun n => (h n).symm

end

end Assembly

/-- The pool is this, and no jump out of the code in the making leads to a float. -/
structure Generator.Stocked (pool : Array UInt64) (g : Generator) : Prop where
  floats : g.floats = pool
  loops : ∀ l ∈ g.loops, ∀ n, l.onContinue ≠ .float n ∧ l.onBreak ≠ .float n
  topLevelExit : ∀ l ∈ g.topLevelExit, ∀ n, l ≠ .float n

/-- Where nothing is in the making, no jump leads out of it. -/
theorem Generator.Stocked.outside {pool : Array UInt64} {g : Generator} (hg : g.floats = pool)
    (hloops : g.loops = []) (hexit : g.topLevelExit = none) : g.Stocked pool where
  floats := hg
  loops := by
    rw [hloops]
    exact List.forall_mem_nil _
  topLevelExit := by
    rw [hexit]
    exact fun l hl => absurd hl (Option.not_mem_none l)

namespace Gen

open Generator

variable {α β : Type} {pool : Array UInt64} {P Q : Nat → Instruction → Nat → Prop} {x : Gen α}
  {f : α → Gen β} {g h : Generator}

/-- An end that leaves the pool as it was, with a reason for each instruction of the code
appended that names a float. -/
def DrawsTo (pool : Array UInt64) (P : Nat → Instruction → Nat → Prop) (g : Generator) :
    EStateM.Result Fault Generator α → Prop
  | .ok _ g' => g'.Stocked pool ∧ ∃ code : List Instruction, g'.code = g.code ++ code ∧
      ∀ k i n, code[k]? = some i → Label.float n ∈ i.labels → P (g.code.size + k) i n
  | .error _ g' => g'.floats = pool

/-- From a state with the pool, the computation ends with the pool, and an instruction it
appends names a float only where `P` holds of its position, of it and of the float's place. -/
def Draws (pool : Array UInt64) (P : Nat → Instruction → Nat → Prop) (x : Gen α)
    (g : Generator) : Prop :=
  g.Stocked pool → DrawsTo pool P g (x g)

namespace Draws

theorem mono (hx : Draws pool P x g) (h : ∀ k i n, P k i n → Q k i n) : Draws pool Q x g := by
  intro hg
  have hx := hx hg
  revert hx
  cases x g with
  | error e g' => exact id
  | ok a g' =>
    rintro ⟨hg', c, hc, hreason⟩
    exact ⟨hg', c, hc, fun k i n hi hn => h _ _ _ (hreason k i n hi hn)⟩

theorem pure (a : α) : Draws pool P (Pure.pure a) g := fun hg =>
  ⟨hg, [], Array.appendList_nil.symm, fun _ _ _ h => by cases h⟩

theorem bind (hx : Draws pool P x g) (hf : ∀ a h, x g = .ok a h → Draws pool P (f a) h) :
    Draws pool P (x >>= f) g := by
  intro hg
  have hx := hx hg
  cases hxg : x g with
  | error e h =>
    rw [hxg] at hx
    rwa [bind_of_error _ hxg]
  | ok a h =>
    rw [hxg] at hx
    obtain ⟨hh, c, hc, hreason⟩ := hx
    have hf := hf a h hxg hh
    rw [bind_of_ok _ hxg]
    revert hf
    cases f a h with
    | error e k => exact id
    | ok b k =>
      rintro ⟨hk, d, hd, hreason'⟩
      refine ⟨hk, c ++ d, Array.ext' (by simp [hc, hd]), fun j i n hi hn => ?_⟩
      rcases Nat.lt_or_ge j c.length with hj | hj
      · rw [List.getElem?_append_left hj] at hi
        exact hreason j i n hi hn
      · rw [List.getElem?_append_right hj] at hi
        have hposition : h.code.size + (j - c.length) = g.code.size + j := by
          rw [hc, ← Array.length_toList, Array.toList_appendList, List.length_append,
            Array.length_toList]
          omega
        exact hposition ▸ hreason' _ i n hi hn

theorem map {f : α → β} (hx : Draws pool P x g) : Draws pool P (f <$> x) g :=
  bind hx fun a _ _ => pure (f a)

theorem get_bind {f : Generator → Gen β} (h : g.Stocked pool → Draws pool P (f g) g) :
    Draws pool P (get >>= f) g := fun hg => h hg hg

/-- What is no code is changed. -/
theorem modify {f : Generator → Generator} (hs : g.Stocked pool → (f g).Stocked pool)
    (hc : (f g).code = g.code) : Draws pool P (modify f) g := fun hg =>
  ⟨hs hg, [], hc.trans Array.appendList_nil.symm, fun _ _ _ h => by cases h⟩

/-- Code of which some instructions name floats. -/
theorem emit {code : List Instruction}
    (h : ∀ k i n, code[k]? = some i → Label.float n ∈ i.labels → P (g.code.size + k) i n) :
    Draws pool P (emit code) g := fun hg => ⟨⟨hg.floats, hg.loops, hg.topLevelExit⟩, code, rfl, h⟩

/-- A float that is in the pool has a place there. -/
theorem internFloat_bind {bits : UInt64} {f : Label → Gen β} (hb : bits ∈ pool)
    (h : ∀ n, pool[n]? = some bits → Draws pool P (f (.float n)) g) :
    Draws pool P (internFloat bits >>= f) g := by
  intro hg
  have hin : interned g.floats bits = g.floats := by
    rw [hg.floats, interned]
    split
    · rfl
    · next hnone => exact absurd hb (Array.idxOf?_eq_none_iff.mp hnone)
  have hplace := getElem?_interned_self g.floats bits
  have hrun := internFloat_eq bits g
  rw [hin] at hplace hrun
  rw [bind_of_ok _ hrun]
  exact h _ (hg.floats ▸ hplace) hg

theorem inScope (hx : Draws pool P x { g with frame := g.frame.push }) :
    Draws pool P (inScope x) g :=
  bind (modify (fun hg => ⟨hg.floats, hg.loops, hg.topLevelExit⟩) rfl) fun _ _ hpush => by
    cases hpush
    exact bind hx fun a _ _ =>
      bind (modify (fun hg => ⟨hg.floats, hg.loops, hg.topLevelExit⟩) rfl) fun _ _ _ => pure a

theorem inLoop {x : Gen Unit} {labels : LoopLabels}
    (hl : ∀ n, labels.onContinue ≠ .float n ∧ labels.onBreak ≠ .float n)
    (hx : Draws pool P x { g with loops := labels :: g.loops }) :
    Draws pool P (inLoop labels x) g :=
  bind (modify (fun hg => ⟨hg.floats, List.forall_mem_cons.mpr ⟨hl, hg.loops⟩,
    hg.topLevelExit⟩) rfl) fun _ _ henter => by
    cases henter
    exact bind hx fun _ _ _ =>
      modify (fun hg => ⟨hg.floats, fun l h => hg.loops l (List.mem_of_mem_tail h),
        hg.topLevelExit⟩) rfl

end Draws

/-! ## Code without floats -/

/-- The computation adds no float to any pool, and appends no instruction that names one. -/
def Dry (x : Gen α) : Prop := ∀ pool g, Draws pool (fun _ _ _ => False) x g

namespace Dry

theorem draws (hx : Dry x) : Draws pool P x g := (hx pool g).mono fun _ _ _ => False.elim

theorem pure (a : α) : Dry (Pure.pure a : Gen α) := fun _ _ => .pure a

theorem bind (hx : Dry x) (hf : ∀ a, Dry (f a)) : Dry (x >>= f) := fun pool g =>
  .bind (hx pool g) fun a h _ => hf a pool h

theorem get_bind {f : Generator → Gen β} (h : ∀ g, Dry (f g)) : Dry (get >>= f) :=
  fun pool g => .get_bind fun _ => h g pool g

theorem ite {b : Prop} [Decidable b] {y : Gen α} (hx : Dry x) (hy : Dry y) :
    Dry (if b then x else y) := by
  split
  · exact hx
  · exact hy

theorem throw (fault : Fault) : Dry (throw fault : Gen α) := fun _ _ hg => hg.floats

/-- Neither code nor floats nor jumps are changed. -/
theorem modify {f : Generator → Generator}
    (h : ∀ g, (f g).code = g.code ∧ (f g).floats = g.floats ∧ (f g).loops = g.loops ∧
      (f g).topLevelExit = g.topLevelExit) : Dry (modify f) := fun pool g => by
  obtain ⟨hcode, hfloats, hloops, hexit⟩ := h g
  refine .modify (fun hg => ⟨hfloats.trans hg.floats, ?_, ?_⟩) hcode
  · rw [hloops]
    exact hg.loops
  · rw [hexit]
    exact hg.topLevelExit

theorem report (cause : Cause) (position : Position) : Dry (report cause position) :=
  modify fun _ => ⟨rfl, rfl, rfl, rfl⟩

theorem emit {c : List Instruction} (h : Floatless c) : Dry (emit c) := fun _ _ =>
  .emit fun _ i n hi hn => h i (List.mem_of_getElem? hi) n hn

theorem emitFixed {c : List Instruction} (h : FixedCode c) : Dry (Gen.emit c) := emit h.floatless

theorem nextLabel : Dry nextLabel :=
  bind (modify fun _ => ⟨rfl, rfl, rfl, rfl⟩) fun _ =>
    get_bind fun _ => pure _

theorem modifyFrame (f : Frame → Frame) : Dry (modifyFrame f) :=
  modify fun _ => ⟨rfl, rfl, rfl, rfl⟩

theorem temporary (type : ValueType) : Dry (temporary type) :=
  get_bind fun _ => (modifyFrame _).bind fun _ => pure _

theorem declare (name : String) (type : ValueType) (mutable : Bool) :
    Dry (declare name type mutable) :=
  get_bind fun _ => (modifyFrame _).bind fun _ => pure _

/-- A text may get a place in its own pool. -/
theorem internString_bind {s : String} {f : Label → Gen β} (h : ∀ n, Dry (f (.string n))) :
    Dry (internString s >>= f) := fun pool g hg => by
  rw [bind_of_ok _ (internString_eq s g)]
  have hf := h ((g.strings.idxOf? s).getD g.strings.size) pool
    { g with strings := interned g.strings s } ⟨hg.floats, hg.loops, hg.topLevelExit⟩
  exact hf

end Dry

end Gen

end ScriptLang
