import ScriptLang.Codegen.Generator
import ScriptLang.Proofs.Computation

/-!
# What generation emits

The code a computation appends, apart from what was there before. Names keep their
slots while it is appended, slots are only taken, and labels placed in the code are new.
-/

namespace ScriptLang

open Assembly

namespace Generator

/-- From the first state to the second this code was emitted. -/
structure Emits (code : List Instruction) (g g' : Generator) : Prop where
  appended : g'.code = g.code ++ code
  find? : ∀ name, g'.find? name = g.find? name
  used : g.frame.used ≤ g'.frame.used
  labels : g.labels ≤ g'.labels
  fresh : ∀ l, .label l ∈ code →
    ∃ mark number, l = .numbered mark number ∧ g.labels < number ∧ number ≤ g'.labels

namespace Emits

variable {code code' : List Instruction} {g g' g'' : Generator}

theorem refl (g : Generator) : g.Emits [] g where
  appended := Array.appendList_nil.symm
  find? _ := rfl
  used := Int.le_refl _
  labels := Nat.le_refl _
  fresh := by rintro _ ⟨⟩

theorem trans (h : g.Emits code g') (h' : g'.Emits code' g'') : g.Emits (code ++ code') g'' where
  appended := by
    rw [h'.appended, h.appended]
    exact Array.ext' (by simp)
  find? name := (h'.find? name).trans (h.find? name)
  used := Int.le_trans h.used h'.used
  labels := Nat.le_trans h.labels h'.labels
  fresh := by
    intro l hl
    rcases List.mem_append.mp hl with hl | hl
    · obtain ⟨mark, number, rfl, hlow, hhigh⟩ := h.fresh l hl
      exact ⟨mark, number, rfl, hlow, Nat.le_trans hhigh h'.labels⟩
    · obtain ⟨mark, number, rfl, hlow, hhigh⟩ := h'.fresh l hl
      exact ⟨mark, number, rfl, Nat.lt_of_le_of_lt h.labels hlow, hhigh⟩

/-- What is emitted later has other labels. -/
theorem labels_apart (h : g.Emits code g') (h' : g'.Emits code' g'') (l : Label)
    (hl : .label l ∈ code') : .label l ∉ code := by
  intro hl'
  obtain ⟨mark, number, rfl, hlow, -⟩ := h'.fresh l hl
  obtain ⟨_, _, heq, -, hhigh⟩ := h.fresh _ hl'
  cases heq
  omega

/-- Traps are not placed in emitted code. -/
theorem trap_notMem (h : g.Emits code g') (trap : Trap) : .label (.trap trap) ∉ code := by
  intro hl
  obtain ⟨_, _, heq, -⟩ := h.fresh _ hl
  cases heq

/-- Code without labels. -/
theorem unlabelled (g : Generator) {code : List Instruction} (h : ∀ l, .label l ∉ code) :
    g.Emits code { g with code := g.code ++ code } where
  appended := rfl
  find? _ := rfl
  used := Int.le_refl _
  labels := Nat.le_refl _
  fresh l hl := absurd hl (h l)

end Emits

end Generator

namespace Gen

variable {α β : Type} {p : α → Generator → List Instruction → Prop}
  {q : β → Generator → List Instruction → Prop} {g : Generator}

/-- In a state, the computation gives a result, and it, the state behind and the code
emitted have a property. -/
def Emitting (p : α → Generator → List Instruction → Prop) (x : Gen α) (g : Generator) : Prop :=
  ∃ a g' code, x g = .ok a g' ∧ g.Emits code g' ∧ p a g' code

namespace Emitting

theorem pure {a : α} (h : p a g []) : Emitting p (Pure.pure a) g :=
  ⟨a, g, [], rfl, .refl g, h⟩

theorem weaken {r : α → Generator → List Instruction → Prop} {x : Gen α}
    (hx : Emitting p x g) (h : ∀ a g' code, g.Emits code g' → p a g' code → r a g' code) :
    Emitting r x g := by
  obtain ⟨a, g', code, hx, he, ha⟩ := hx
  exact ⟨a, g', code, hx, he, h a g' code he ha⟩

theorem bind {x : Gen α} {f : α → Gen β} (hx : Emitting p x g)
    (hf : ∀ a g' code, g.Emits code g' → p a g' code →
      Emitting (fun b g'' code' => q b g'' (code ++ code')) (f a) g') :
    Emitting q (x >>= f) g := by
  obtain ⟨a, g', code, hx, he, ha⟩ := hx
  obtain ⟨b, g'', code', hf, he', hb⟩ := hf a g' code he ha
  exact ⟨b, g'', code ++ code', by rw [bind_of_ok f hx, hf], he.trans he', hb⟩

end Emitting

theorem emitting_emit (g : Generator) {code : List Instruction} (h : ∀ l, .label l ∉ code) :
    Emitting (fun _ g' c => g'.frame = g.frame ∧ c = code) (emit code) g :=
  ⟨(), _, code, rfl, .unlabelled g h, rfl, rfl⟩

theorem emitting_report (cause : Cause) (position : Position) (g : Generator) :
    Emitting (fun _ g' c => g'.frame = g.frame ∧ c = []) (report cause position) g :=
  ⟨(), _, [], rfl, ⟨Array.appendList_nil.symm, fun _ => rfl, Int.le_refl _, Nat.le_refl _, by
    rintro _ ⟨⟩⟩, rfl, rfl⟩

theorem label_notMem_storeCode (slot : Slot) (l : Label) : .label l ∉ slot.storeCode := by
  unfold Slot.storeCode
  split <;> simp

theorem label_notMem_loadCode (slot : Slot) (l : Label) : .label l ∉ slot.loadCode := by
  unfold Slot.loadCode
  split <;> simp

theorem label_notMem_truthCode (type : ValueType) (l : Label) : .label l ∉ type.truthCode := by
  cases type <;> simp [ValueType.truthCode]

/-- The result goes to the next bytes of the frame. -/
theorem emitting_spill (type : ValueType) (g : Generator) :
    Emitting (fun slot g' code => slot = g.frame.fresh type true ∧
      g'.frame.used = g.frame.used + type.size ∧ code = slot.storeCode) (spill type) g := by
  refine ⟨g.frame.fresh type true, _, _, rfl, ⟨rfl, fun _ => rfl, ?_, Nat.le_refl _, ?_⟩, rfl, rfl,
    rfl⟩
  · exact Int.le_add_of_nonneg_right (Int.natCast_nonneg _)
  · intro l hl
    exact absurd hl (label_notMem_storeCode _ l)

theorem label_mem_integerCode {operator : Arithmetic} {number : Nat} {l : Label}
    (h : .label l ∈ operator.integerCode number) :
    operator.divides = true ∧ ∃ mark, l = .numbered mark number := by
  cases operator <;> simp [Arithmetic.integerCode] at h
  all_goals rcases h with rfl | rfl <;> exact ⟨rfl, _, rfl⟩

/-- The labels of a division get a number of their own. -/
theorem emitting_emitIntegerArithmetic (operator : Arithmetic) (left : Slot) (g : Generator) :
    Emitting (fun _ g' code => g'.frame = g.frame ∧ ∃ number, code =
        ([.move (.register .rax) (.register .rcx)] ++ left.loadCode) ++
          operator.integerCode number)
      (emitIntegerArithmetic operator left) g := by
  refine (emitting_emit g (by simp [label_notMem_loadCode])).bind fun _ g' _ _ hc => ?_
  obtain ⟨hframe, rfl⟩ := hc
  rw [← hframe]
  have hfresh : ∀ l, .label l ∈ operator.integerCode (g'.labels + 1) → operator.divides = true ∧
      ∃ mark number, l = .numbered mark number ∧ g'.labels < number ∧
        number ≤ g'.labels + 1 := by
    intro l hl
    obtain ⟨hd, mark, rfl⟩ := label_mem_integerCode hl
    exact ⟨hd, mark, _, rfl, Nat.lt_succ_self _, Nat.le_refl _⟩
  cases hd : operator.divides with
  | true =>
    refine ⟨(), { g' with
      labels := g'.labels + 1
      code := g'.code ++ operator.integerCode (g'.labels + 1) }, _, rfl,
      ⟨rfl, fun _ => rfl, Int.le_refl _, Nat.le_succ _, fun l hl => (hfresh l hl).2⟩, rfl, _, rfl⟩
  | false =>
    refine ⟨(), _, _, rfl, .unlabelled g' fun l hl => ?_, rfl, 0, rfl⟩
    obtain ⟨hd', -⟩ := label_mem_integerCode hl
    rw [hd] at hd'
    cases hd'

theorem emitting_resolve {name : String} {slot : Slot} (h : g.find? name = some slot)
    (position : Position) :
    Emitting (fun s g' code => s = slot ∧ g' = g ∧ code = []) (resolve name position) g := by
  refine ⟨slot, g, [], ?_, .refl g, rfl, rfl, rfl⟩
  have hg : (get : Gen Generator) g = .ok g g := rfl
  rw [resolve, bind_of_ok _ hg, h]
  rfl

end Gen

end ScriptLang
