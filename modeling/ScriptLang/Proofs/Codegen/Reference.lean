import ScriptLang.Proofs.Codegen.Allotment

/-!
# What code refers to

All memory that code names is part of a slot or of a cell, an argument on the stack, a
constant of the pool, or what a register points to. Labels whose address it takes are in
the pools or in every listing, and it calls functions that are known.
-/

namespace ScriptLang

open Assembly Gen

namespace Stage

/-- Memory that code may name, told by slots and cells and not by names. -/
inductive Uses (cells : List Slot) (s : Stage) : Memory → Prop
  | slot {a m} : a ∈ s.allotted → m ∈ a.slot.parts → s.Uses cells m
  | cell {slot m} : slot ∈ cells → m ∈ slot.parts → s.Uses cells m
  | argument (index : Nat) : s.Uses cells (.frame (16 + 8 * index))
  | constant {index} : index < s.generator.floats.size → s.Uses cells (.data (.float index) 0)
  | pointed (base : Register) : s.Uses cells (.pointedBy base)

/-- What an instruction refers to is there. -/
structure Refers (cells : List Slot) (s : Stage) (i : Instruction) : Prop where
  memories : ∀ m ∈ i.memories, s.Uses cells m
  taken : ∀ l ∈ i.taken?, s.Defines l
  callee : ∀ l ∈ i.callee?, ∃ callee signature,
    s.generator.signatures.find? callee = some signature ∧ l = .symbol signature.symbol

variable {cells : List Slot} {s t : Stage} {m : Memory} {slot : Slot} {l : Label}
  {i : Instruction}

theorem refers_iff : s.Refers cells i ↔ (∀ m ∈ i.memories, s.Uses cells m) ∧
    (∀ l ∈ i.taken?, s.Defines l) ∧ ∀ l ∈ i.callee?, ∃ callee signature,
      s.generator.signatures.find? callee = some signature ∧ l = .symbol signature.symbol :=
  ⟨fun ⟨a, b, c⟩ => ⟨a, b, c⟩, fun ⟨a, b, c⟩ => ⟨a, b, c⟩⟩

/-- What is there stays. -/
theorem Refers.mono (h : s.Refers cells i) (ha : s.allotted ⊆ t.allotted)
    (hf : s.generator.floats.size ≤ t.generator.floats.size)
    (hs : s.generator.strings.size ≤ t.generator.strings.size)
    (hg : t.generator.signatures = s.generator.signatures) : t.Refers cells i where
  memories m hm := by
    cases h.memories m hm with
    | slot hslot hm => exact .slot (ha hslot) hm
    | cell hc hm => exact .cell hc hm
    | argument index => exact .argument index
    | constant hi => exact .constant (Nat.lt_of_lt_of_le hi hf)
    | pointed r => exact .pointed r
  taken l hl := by
    cases h.taken l hl with
    | string hi => exact .string (Nat.lt_of_lt_of_le hi hs)
    | format f b => exact .format f b
    | newline => exact .newline
    | truth b => exact .truth b
  callee := by rw [hg]; exact h.callee

theorem Refers.before (h : s.Refers cells i) (hb : s.Before t) : t.Refers cells i :=
  h.mono hb.allotted.subset hb.floats.length_le hb.strings.length_le hb.signatures

namespace Tidy

theorem uses_of_names (h : s.Tidy cells) (hs : s.generator.Names slot) (hm : m ∈ slot.parts) :
    s.Uses cells m := by
  rcases hs with ⟨scope, hscope, name, hn⟩ | ⟨name, hn⟩
  · exact .slot (h.named scope hscope name slot hn) hm
  · exact .cell (h.globals name slot hn) hm

theorem uses_of_addresses (h : s.Tidy cells) (hm : s.Addresses m) : s.Uses cells m := by
  cases hm with
  | part hs hp =>
    rcases hs with hs | hs
    · exact h.uses_of_names hs hp
    · exact .slot hs hp
  | argument index => exact .argument index
  | constant hi => exact .constant hi
  | pointed r => exact .pointed r

theorem refers_of_admits (h : s.Tidy cells) (hi : s.Admits i) : s.Refers cells i where
  memories m hm := h.uses_of_addresses (hi.memories m hm)
  taken := hi.taken
  callee := by rw [hi.callee]; exact nofun

/-- The variable that a loop counts in. -/
theorem uses_copy (h : s.Tidy cells) {leave : Stage → Stage} (hcounts : CountsIn s slot t leave) :
    t.Uses cells slot.low := by
  cases hcounts with
  | there hn _ => exact h.uses_of_names hn slot.low_mem_parts
  | own name => exact .slot List.mem_cons_self (Slot.low_mem_parts _)

end Tidy

theorem refers_storeCode (h : ∀ m ∈ slot.parts, s.Uses cells m) :
    ∀ i ∈ slot.storeCode, s.Refers cells i := by
  have hlow := h _ slot.low_mem_parts
  unfold Slot.storeCode
  split
  · simp [refers_iff, hlow]
  · next ht =>
    have hhigh := h slot.high (by simp [Slot.parts, ht])
    simp [refers_iff, hlow, hhigh]
  · simp [refers_iff, hlow]

theorem refers_truthCode (s : Stage) (type : ValueType) :
    ∀ i ∈ type.truthCode, s.Refers cells i := by
  cases type <;> simp [ValueType.truthCode, refers_iff, Uses.pointed]

theorem refers_jumpIfFalse (s : Stage) (type : ValueType) (l : Label) :
    ∀ i ∈ type.jumpIfFalse l, s.Refers cells i :=
  List.forall_mem_append.mpr ⟨s.refers_truthCode type, by simp [refers_iff]⟩

end Stage

open Stage

theorem Slot.Fills.refers {cells : List Slot} {s : Stage} {slot : Slot} {c : List Instruction}
    (h : slot.Fills c) (hs : ∀ m ∈ slot.parts, s.Uses cells m) : ∀ i ∈ c, s.Refers cells i := by
  cases h with
  | result => exact refers_storeCode hs
  | constant n ht => simp [refers_iff, hs _ slot.low_mem_parts]

/-- Leaving the scope of a loop's counter drops nothing that code refers to. -/
theorem CountsIn.refers {cells : List Slot} {s t : Stage} {slot : Slot} {leave : Stage → Stage}
    (h : CountsIn s slot t leave) {u : Stage} {i : Instruction} (hu : u.Refers cells i) :
    (leave u).Refers cells i := by
  cases h with
  | there => exact hu
  | own name =>
    exact hu.mono (List.Subset.refl _) (Nat.le_refl _) (Nat.le_refl _) rfl

/-- All that code refers to is there behind it. -/
theorem Makes.refers {cells : List Slot} {s t : Stage} {c : List Instruction}
    (h : Makes cells s c t) (hr : s.generator.Rooted) (hs : s.Tidy cells) :
    ∀ i ∈ c, t.Refers cells i := by
  have hlater : ∀ {u v : Stage} {d : List Instruction}, u.Before v →
      (∀ i ∈ d, u.Refers cells i) → ∀ i ∈ d, v.Refers cells i :=
    fun hb hd i hi => (hd i hi).before hb
  induction h with
  | plain hp h =>
    exact fun i hi => (hs.congr (t := ⟨_, _⟩) hp.frame hp.globals rfl).refers_of_admits (h i hi)
  | append h h' ih ih' =>
    have hr' := (h.before hr).rooted hr
    exact List.forall_mem_append.mpr
      ⟨hlater (h'.before hr') (ih hr hs), ih' hr' (h.tidy hs)⟩
  | fill h => exact h.refers fun m hm => .slot List.mem_cons_self hm
  | declare => exact List.forall_mem_nil _
  | rebind => exact List.forall_mem_nil _
  | scope h ih =>
    exact fun i hi => (ih (List.cons_ne_nil _ _) hs.pushed i hi).mono (List.Subset.refl _)
      (Nat.le_refl _) (Nat.le_refl _) rfl
  | @divide s operator h => cases operator <;> cases h <;> simp [Arithmetic.integerCode, refers_iff]
  | @call s callee symbol f slots hf h =>
    intro i hi
    obtain ⟨hm, -, ht, hc⟩ := calling_callCode _ _ i hi
    refine ⟨fun m hmem => ?_, by rw [ht]; simp, fun l hl => ⟨callee, _, hf, hc l hl⟩⟩
    obtain ⟨slot, hslot, rfl⟩ := hm m hmem
    exact .slot (h slot hslot) slot.low_mem_parts
  | @branch s t u v c d e type h₁ h₂ h₃ ih₁ ih₂ ih₃ =>
    obtain ⟨-, hr₁, b₂, hr₂, b₃⟩ := branch_stages hr h₁ h₂ h₃
    have t₁ := h₁.tidy (hs.congr rfl rfl rfl)
    have o₁ := hlater (b₂.trans b₃) (ih₁ hr (hs.congr rfl rfl rfl))
    have o₂ := hlater b₃ (ih₂ hr₁ t₁)
    have o₃ := ih₃ hr₂ (h₂.tidy t₁)
    simp only [List.forall_mem_append]
    exact ⟨⟨⟨⟨⟨o₁, refers_jumpIfFalse _ _ _⟩, o₂⟩, by simp [refers_iff]⟩, o₃⟩,
      by simp [refers_iff]⟩
  | whileLoop h₁ h₂ ih₁ ih₂ =>
    have hr₁ := (h₁.before hr).rooted hr
    have o₁ := hlater (.looped (h₂.before hr₁)) (ih₁ hr (hs.congr rfl rfl rfl))
    have o₂ := ih₂ hr₁ ((h₁.tidy (hs.congr rfl rfl rfl)).congr rfl rfl rfl)
    simp only [List.forall_mem_append]
    exact ⟨⟨⟨⟨by simp [refers_iff], o₁⟩, refers_jumpIfFalse _ _ _⟩,
      fun i hi => (o₂ i hi).mono (List.Subset.refl _) (Nat.le_refl _) (Nat.le_refl _) rfl⟩,
      by simp [refers_iff]⟩
  | @doWhile s t u c d type h₁ h₂ ih₁ ih₂ =>
    have b₁ := Stage.Before.looped (h₁.before hr)
    have hr₁ := b₁.rooted hr
    have o₁ : ∀ i ∈ c, t.looped.Refers cells i := fun i hi =>
      (ih₁ hr (hs.congr rfl rfl rfl) i hi).mono (List.Subset.refl _) (Nat.le_refl _)
        (Nat.le_refl _) rfl
    have o₂ := ih₂ hr₁ ((h₁.tidy (hs.congr rfl rfl rfl)).congr rfl rfl rfl)
    simp only [List.forall_mem_append]
    exact ⟨⟨⟨⟨by simp [refers_iff], hlater (h₂.before hr₁) o₁⟩, by simp [refers_iff]⟩, o₂⟩,
      refers_truthCode _ _, by simp [refers_iff]⟩
  | @forLoop s t u v w c d e copy leave slots h₁ hcounter h₂ hlimit hstep hcounts h₃ ih₁ ih₂ ih₃ =>
    obtain ⟨-, hr₁, b₂, -, hr₃, b₃, b₄⟩ := forLoop_stages hr h₁ h₂ hcounts h₃
    have t₁ := (h₁.tidy (hs.congr rfl rfl rfl)).handing .integer (.inr rfl)
    have t₂ := h₂.tidy t₁
    have o₁ := hlater (b₂.trans b₄) (hlater (.handing t .integer .counter)
      (ih₁ hr (hs.congr rfl rfl rfl)))
    have o₂ := hlater b₄ (ih₂ hr₁ t₁)
    have o₃ : ∀ i ∈ e, (leave w.looped).Refers cells i := fun i hi => hcounts.refers
      ((ih₃ hr₃ ((t₂.counting hcounts).1.congr rfl rfl rfl) i hi).mono
        (List.Subset.refl _) (Nat.le_refl _) (Nat.le_refl _) rfl)
    have hcopied : v.Refers cells (.move (.register .rax) (.memory copy.low)) := by
      simp [refers_iff, t₂.uses_copy hcounts]
    have hcopy := (hcounts.refers (hcopied.before b₃)).memories copy.low (by simp)
    have huses : ∀ {a : Allotment} {m : Memory}, a ∈ u.allotted → m ∈ a.slot.parts →
        (leave w.looped).Uses cells m := fun ha hm => .slot (b₄.allotted.subset ha) hm
    have hstored : ⟨slots.counter, .counter⟩ ∈ u.allotted :=
      b₂.allotted.subset (hcounter ▸ List.mem_cons_self)
    have hc₀ := huses hstored slots.counter.low_mem_parts
    have hc₁ := huses hlimit slots.limit.low_mem_parts
    have hc₂ := huses hstep slots.step.low_mem_parts
    simp only [List.forall_mem_append]
    exact ⟨⟨⟨⟨⟨o₁, refers_storeCode fun m hm => huses hstored hm⟩, o₂⟩,
      by simp [lapHead, refers_iff, hc₀, hc₁, hcopy]⟩, o₃⟩,
      by simp [lapTail, refers_iff, hc₀, hc₂]⟩
  | topLevel h ih =>
    have o := ih hr (hs.congr rfl rfl rfl)
    simp only [List.forall_mem_append]
    exact ⟨fun i hi => (o i hi).mono (List.Subset.refl _) (Nat.le_refl _) (Nat.le_refl _) rfl,
      by simp [refers_iff]⟩

end ScriptLang
