import Mathlib.Data.List.Pairwise
import ScriptLang.Proofs.Codegen.CallSequence
import ScriptLang.Proofs.Codegen.Making.Program

/-!
# The slots of a function

Slots are handed out downwards without gaps, so no two have a byte in common, and the frame
covers them. Code keeps to them: it names no other memory below the frame pointer, and
writes a slot without a name once, where the slot was handed out. Only the counter of a
`for` is written once more, at the end of a lap.
-/

namespace ScriptLang

open Assembly Gen

/-! ## Bytes of slots -/

namespace ValueType

variable (type : ValueType)

theorem size_cases : type.size = 8 ∨ type = .range ∧ type.size = 16 := by
  cases type <;> simp [size]

theorem eight_dvd_size : (8 : Int) ∣ type.size := by
  rcases type.size_cases with h | ⟨-, h⟩ <;> omega

theorem size_pos : 0 < (type.size : Int) := by
  rcases type.size_cases with h | ⟨-, h⟩ <;> omega

end ValueType

namespace Slot

/-- The byte of the frame is one of the slot. -/
def Covers (s : Slot) (n : Int) : Prop :=
  ∃ offset, s.location = .frame offset ∧ offset ≤ n ∧ n < offset + s.type.size

/-- The slots have no byte of the frame in common. -/
def Apart (s t : Slot) : Prop := ∀ n, s.Covers n → ¬ t.Covers n

variable {s t : Slot} {m : Memory}

/-- A part of a slot of the frame is eight of its bytes. -/
theorem part_frame (hm : m ∈ s.parts) {offset : Int} (ho : s.location = .frame offset) :
    ∃ n, m = .frame n ∧ offset ≤ n ∧ n + 8 ≤ offset + s.type.size := by
  have hsize : 8 ≤ (s.type.size : Int) := by
    rcases s.type.size_cases with h | ⟨-, h⟩ <;> omega
  unfold Slot.parts Slot.low Slot.high Slot.part at hm
  rw [ho] at hm
  split at hm
  · next hr =>
    rw [hr]
    rcases List.mem_cons.mp hm with rfl | hm
    · exact ⟨_, rfl, by omega, by simp [ValueType.size]⟩
    · cases List.mem_singleton.mp hm
      exact ⟨_, rfl, by omega, by simp [ValueType.size]; omega⟩
  · cases List.mem_singleton.mp hm
    exact ⟨_, rfl, by omega, by omega⟩

theorem covers_part (hm : m ∈ s.parts) {n : Int} (h : m = .frame n) : s.Covers n := by
  cases hl : s.location with
  | frame offset =>
    obtain ⟨k, rfl, hlow, hhigh⟩ := part_frame hm hl
    cases h
    exact ⟨offset, hl, hlow, by omega⟩
  | cell name =>
    unfold Slot.parts Slot.low Slot.high Slot.part at hm
    rw [hl] at hm
    split at hm <;> simp [h] at hm

theorem part_cell (hm : m ∈ s.parts) {name : String} (hl : s.location = .cell name) (n : Int) :
    m ≠ .frame n := fun h => by
  obtain ⟨_, ho, -⟩ := covers_part hm h
  cases hl.symm.trans ho

end Slot

/-! ## Handing out -/

namespace Frame

@[simp] theorem used_bind (f : Frame) (name : String) (s : Slot) :
    (f.bind name s).used = f.used := by
  unfold bind
  split <;> rfl

@[simp] theorem used_pop (f : Frame) : f.pop.used = f.used := by
  unfold pop
  split <;> rfl

/-- What a frame hands out until it is another one, latest first. -/
inductive Hands (f : Frame) : List Allotment → Frame → Prop
  | nil : Hands f [] f
  | temporary {as g} (type : ValueType) {purpose : Purpose} :
    purpose = .temporary ∨ purpose = .counter → Hands f as g →
    Hands f (⟨(g.temporary type).1, purpose⟩ :: as) (g.temporary type).2
  | declare {as g} (name : String) (type : ValueType) (mutable : Bool) : Hands f as g →
    Hands f (⟨(g.declare name type mutable).1, .variable name⟩ :: as)
      (g.declare name type mutable).2
  | push {as g} : Hands f as g → Hands f as g.push
  | pop {as g} : Hands f as g → Hands f as g.pop

end Frame

/-- Slots lie below each other without gaps, the latest lowest, and take so many bytes. -/
inductive Stacked : List Slot → Int → Prop
  | nil : Stacked [] 0
  | cons {s ss n} : s.location = .frame (-(n + s.type.size)) → Stacked ss n →
    Stacked (s :: ss) (n + s.type.size)

namespace Stacked

variable {ss : List Slot} {s : Slot} {n : Int}

theorem nonneg (h : Stacked ss n) : 0 ≤ n := by
  induction h with
  | nil => exact Int.le_refl 0
  | @cons s _ _ _ _ ih => exact Int.add_nonneg ih (Int.natCast_nonneg _)

theorem eight_dvd (h : Stacked ss n) : 8 ∣ n := by
  induction h with
  | nil => exact ⟨0, rfl⟩
  | @cons s _ _ _ _ ih => exact Int.dvd_add ih s.type.eight_dvd_size

theorem within (h : Stacked ss n) (hs : s ∈ ss) :
    ∃ offset, s.location = .frame offset ∧ 8 ∣ offset ∧ -n ≤ offset ∧
      offset + s.type.size ≤ 0 := by
  induction h with
  | nil => cases hs
  | @cons t _ k ht hss ih =>
    have hdvd := hss.eight_dvd
    have hnonneg := hss.nonneg
    have hsize := t.type.eight_dvd_size
    rcases List.mem_cons.mp hs with rfl | hs
    · exact ⟨_, ht, by omega, by omega, by omega⟩
    · obtain ⟨offset, hl, h8, hlow, hhigh⟩ := ih hs
      have hpos := t.type.size_pos
      exact ⟨offset, hl, h8, by omega, hhigh⟩

theorem pairwise (h : Stacked ss n) : ss.Pairwise Slot.Apart := by
  induction h with
  | nil => exact .nil
  | @cons t ss k ht hss ih =>
    refine .cons (fun s hs b hb hb' => ?_) ih
    obtain ⟨offset, hl, -, hlow, -⟩ := hss.within hs
    obtain ⟨o, ho, hob, hbo⟩ := hb
    obtain ⟨o', ho', hob', -⟩ := hb'
    cases ht.symm.trans ho
    cases hl.symm.trans ho'
    omega

/-- The lowest slot ends at the last byte taken. -/
theorem lowest (h : Stacked ss n) : n = 0 ∨ ∃ s ∈ ss, s.location = .frame (-n) := by
  cases h with
  | nil => exact .inl rfl
  | cons hs _ => exact .inr ⟨_, List.mem_cons_self, hs⟩

end Stacked

/-- Of the slots handed out, no two have a part in common. -/
def Unshared (as : List Allotment) : Prop :=
  ∀ a ∈ as, ∀ b ∈ as, ∀ m ∈ a.slot.parts, m ∈ b.slot.parts → a = b

namespace Frame.Hands

variable {as : List Allotment} {f : Frame}

theorem stacked (h : Hands .new as f) : Stacked (as.map (·.slot)) f.used := by
  induction h with
  | nil => exact .nil
  | temporary type _ _ ih => exact .cons rfl ih
  | @declare _ g name type mutable _ ih =>
    rw [show (g.declare name type mutable).2.used = g.used + type.size from used_bind _ _ _]
    exact .cons rfl ih
  | push _ ih => exact ih
  | pop _ ih => rwa [used_pop]

theorem unshared (h : Hands .new as f) : Unshared as := by
  have hpairs : as.Pairwise fun a b => ∀ m ∈ a.slot.parts, m ∈ b.slot.parts → a = b := by
    refine (List.pairwise_map.mp h.stacked.pairwise).imp_of_mem fun ha _ hapart m hm hm' => ?_
    obtain ⟨offset, hl, -⟩ := h.stacked.within (List.mem_map_of_mem ha)
    obtain ⟨n, hn, -⟩ := Slot.part_frame hm hl
    exact absurd (Slot.covers_part hm' hn) (hapart n (Slot.covers_part hm hn))
  have : Std.Symm fun a b : Allotment => ∀ m ∈ a.slot.parts, m ∈ b.slot.parts → a = b :=
    ⟨fun _ _ h m hb ha => (h m ha hb).symm⟩
  exact fun a ha b hb => hpairs.forall_of_forall (fun _ _ _ _ _ => rfl) ha hb

end Frame.Hands

/-! ## Stages -/

namespace Stage

variable {cells : List Slot} {s t u : Stage} {m : Memory}

theorem mem_scopes_declaring {name : String} {type : ValueType} {mutable : Bool}
    {scope : NameMap Slot}
    (h : scope ∈ (s.declaring name type mutable).generator.frame.scopes) :
    scope ∈ s.generator.frame.scopes ∨ ∃ inner ∈ s.generator.frame.scopes,
      scope = inner.insert name (s.generator.frame.fresh type mutable) := by
  change scope ∈ ((s.generator.frame.alloc type.size).bind name _).scopes at h
  unfold Frame.bind at h
  split at h
  · next inner outer hsc =>
    have hsc : s.generator.frame.scopes = inner :: outer := hsc
    rw [hsc]
    rcases List.mem_cons.mp h with rfl | h
    · exact .inr ⟨inner, List.mem_cons_self, rfl⟩
    · exact .inl (List.mem_cons_of_mem _ h)
  · exact .inl h

theorem mem_scopes_popped {scope : NameMap Slot} (h : scope ∈ s.popped.generator.frame.scopes) :
    scope ∈ s.generator.frame.scopes := by
  change scope ∈ s.generator.frame.pop.scopes at h
  unfold Frame.pop at h
  split at h
  · next hsc =>
    rw [hsc]
    exact List.mem_cons_of_mem _ h
  · exact h

/-- The slots were handed out by the frame, and names mean slots for variables and cells. -/
structure Tidy (cells : List Slot) (s : Stage) : Prop where
  handed : Frame.Hands .new s.allotted s.generator.frame
  named : ∀ scope ∈ s.generator.frame.scopes, ∀ name slot, scope.find? name = some slot →
    ⟨slot, .variable name⟩ ∈ s.allotted
  globals : ∀ name slot, s.generator.globals.find? name = some slot → slot ∈ cells

namespace Tidy

theorem congr (h : s.Tidy cells) (hf : t.generator.frame = s.generator.frame)
    (hg : t.generator.globals = s.generator.globals) (ha : t.allotted = s.allotted) :
    t.Tidy cells where
  handed := by rw [ha, hf]; exact h.handed
  named := by rw [ha, hf]; exact h.named
  globals := by rw [hg]; exact h.globals

theorem handing (h : s.Tidy cells) (type : ValueType) {purpose : Purpose}
    (hp : purpose = .temporary ∨ purpose = .counter) : (s.handing type purpose).Tidy cells where
  handed := .temporary type hp h.handed
  named scope hs name slot hn := List.mem_cons_of_mem _ (h.named scope hs name slot hn)
  globals := h.globals

theorem declaring (h : s.Tidy cells) (name : String) (type : ValueType) (mutable : Bool) :
    (s.declaring name type mutable).Tidy cells where
  handed := .declare name type mutable h.handed
  named scope hs other slot hn := by
    rcases s.mem_scopes_declaring hs with hs | ⟨inner, hin, rfl⟩
    · exact List.mem_cons_of_mem _ (h.named scope hs other slot hn)
    · rw [NameMap.find?_insert] at hn
      split at hn
      · next heq =>
        cases hn
        rw [heq]
        exact List.mem_cons_self
      · exact List.mem_cons_of_mem _ (h.named inner hin other slot hn)
  globals := h.globals

theorem rebinding (h : s.Tidy cells) (name : String) {cell : Slot} (hc : cell ∈ cells) :
    (s.rebinding name cell).Tidy cells where
  handed := h.handed
  named := h.named
  globals other slot hn := by
    rw [Stage.rebinding, NameMap.find?_insert] at hn
    split at hn
    · cases hn
      exact hc
    · exact h.globals other slot hn

theorem pushed (h : s.Tidy cells) : s.pushed.Tidy cells where
  handed := .push h.handed
  named scope hs name slot hn := by
    rcases List.mem_cons.mp hs with rfl | hs
    · cases hn
    · exact h.named scope hs name slot hn
  globals := h.globals

theorem popped (h : s.Tidy cells) : s.popped.Tidy cells where
  handed := .pop h.handed
  named scope hs := h.named scope (mem_scopes_popped hs)
  globals := h.globals

/-- A loop counts in a variable that is known, or declares one. -/
theorem counting (h : s.Tidy cells) {slot : Slot} {leave : Stage → Stage}
    (hc : CountsIn s slot t leave) :
    t.Tidy cells ∧ ∀ u : Stage, u.Tidy cells → (leave u).Tidy cells := by
  cases hc with
  | there => exact ⟨h, fun _ hu => hu⟩
  | own name => exact ⟨h.pushed.declaring name .integer true, fun _ hu => hu.popped⟩

end Tidy

end Stage

theorem CountsIn.sameAllotted {s t : Stage} {slot : Slot} {leave : Stage → Stage}
    (h : CountsIn s slot t leave) (u : Stage) : (leave u).allotted = u.allotted := by
  cases h <;> rfl

/-- Slots stay in order while code is made. -/
theorem Makes.tidy {cells : List Slot} {s t : Stage} {c : List Instruction}
    (h : Makes cells s c t) (hs : s.Tidy cells) : t.Tidy cells := by
  induction h with
  | plain hp _ => exact hs.congr hp.frame hp.globals rfl
  | append _ _ ih ih' => exact ih' (ih hs)
  | fill _ => exact hs.handing _ (.inl rfl)
  | declare name type mutable => exact hs.declaring name type mutable
  | rebind name hc => exact hs.rebinding name hc
  | scope _ ih => exact (ih hs.pushed).popped
  | divide _ => exact hs.congr rfl rfl rfl
  | call _ _ => exact hs
  | branch _ _ _ ih₁ ih₂ ih₃ => exact ih₃ (ih₂ (ih₁ (hs.congr rfl rfl rfl)))
  | whileLoop _ _ ih₁ ih₂ =>
    exact (ih₂ ((ih₁ (hs.congr rfl rfl rfl)).congr rfl rfl rfl)).congr rfl rfl rfl
  | doWhile _ _ ih₁ ih₂ => exact ih₂ ((ih₁ (hs.congr rfl rfl rfl)).congr rfl rfl rfl)
  | forLoop _ _ _ _ _ hc _ ih₁ ih₂ ih₃ =>
    obtain ⟨hv, hleave⟩ := (ih₂ ((ih₁ (hs.congr rfl rfl rfl)).handing _ (.inr rfl))).counting hc
    exact hleave _ ((ih₃ (hv.congr rfl rfl rfl)).congr rfl rfl rfl)
  | topLevel _ ih => exact (ih (hs.congr rfl rfl rfl)).congr rfl rfl rfl

/-! ## Memory of operands -/

section

variable (slot : Slot) (type : ValueType) (l : Label) (m : Memory)

theorem low_ne_high : slot.low ≠ slot.high := by
  unfold Slot.low Slot.high Slot.part
  split
  · next n _ => exact fun h => absurd (Memory.frame.inj h) (by omega)
  · exact fun h => by cases h

/-- Storing to a slot writes each of its parts once. -/
theorem writes_storeCode : writes m slot.storeCode = if m ∈ slot.parts then 1 else 0 := by
  have hne := low_ne_high slot
  unfold Slot.storeCode Slot.parts
  split
  · simp [*]
  · simp only [*, if_true, writes_cons, writes_nil, Instruction.stores, Operand.memories,
      List.mem_cons, List.not_mem_nil, or_false]
    grind
  · next h => simp [show slot.type ≠ .range from h]

theorem memories_storeCode : ∀ i ∈ slot.storeCode, ∀ m ∈ i.memories, m ∈ slot.parts := by
  unfold Slot.storeCode Slot.parts
  split
  · simp [*]
  · simp [*]
  · next h => simp [show slot.type ≠ .range from h]

@[simp] theorem writes_truthCode : writes m type.truthCode = 0 := by
  cases type <;> simp [ValueType.truthCode]

@[simp] theorem writes_jumpIfFalse : writes m (type.jumpIfFalse l) = 0 := by
  simp [ValueType.jumpIfFalse]

end

section

variable {m : Memory} {slots : LoopSlots} {copy : Slot} (number : Nat)

/-- The head of a lap writes to the variable of the loop only. -/
theorem writes_lapHead (h : m ≠ copy.low) : writes m (lapHead number slots copy) = 0 := by
  simp [lapHead, h]

/-- The end of a lap writes to the counter, as its first store does. -/
theorem writes_lapTail (h : slots.counter.type = .integer) :
    writes m (lapTail number slots) = writes m slots.counter.storeCode := by
  simp [lapTail, writes_storeCode, Slot.parts, h]

end

theorem Slot.Fills.writes {slot : Slot} {c : List Instruction} (h : slot.Fills c) (m : Memory) :
    writes m c = if m ∈ slot.parts then 1 else 0 := by
  cases h with
  | result => exact writes_storeCode slot m
  | constant n ht => simp [Slot.parts, ht]

theorem Slot.Fills.memories {slot : Slot} {c : List Instruction} (h : slot.Fills c) :
    ∀ i ∈ c, ∀ m ∈ i.memories, m ∈ slot.parts := by
  cases h with
  | result => exact memories_storeCode slot
  | constant n ht => simp [slot.low_mem_parts]

/-- What an instruction of a call names: slots of arguments, and the function. -/
structure Calling (symbol : String) (slots : List Slot) (i : Instruction) : Prop where
  memories : ∀ m ∈ i.memories, ∃ slot ∈ slots, m = slot.low
  stores : i.stores = []
  taken : i.taken? = none
  callee : ∀ l ∈ i.callee?, l = .symbol symbol

theorem calling_callCode (symbol : String) (slots : List Slot) :
    ∀ i ∈ callCode symbol slots, Calling symbol slots i := by
  have hpushed : ∀ p : Passage, ∀ slot ∈ slots, ∀ i ∈ p.pushed slot, Calling symbol slots i := by
    intro p slot hs i hi
    rw [Passage.mem_pushed hi]
    exact ⟨List.forall_mem_singleton.mpr ⟨slot, hs, rfl⟩, rfl, rfl, nofun⟩
  have hsent : ∀ p : Passage, ∀ slot ∈ slots, ∀ i ∈ p.send slot, Calling symbol slots i := by
    intro p slot hs i hi
    cases p with
    | stack => cases hi
    | _ =>
      cases List.mem_singleton.mp hi
      exact ⟨List.forall_mem_singleton.mpr ⟨slot, hs, rfl⟩, rfl, rfl, nofun⟩
  have hbare : ∀ i : Instruction, i.memories = [] → i.stores = [] → i.taken? = none →
      i.callee? = none → Calling symbol slots i := fun i hm hs ht hc =>
    ⟨by rw [hm]; exact List.forall_mem_nil _, hs, ht, by rw [hc]; exact nofun⟩
  rw [callCode_eq]
  refine List.forall_mem_append.mpr ⟨List.forall_mem_append.mpr ⟨List.forall_mem_append.mpr
    ⟨List.forall_mem_append.mpr ⟨?_, fun i hi => ?_⟩, fun i hi => ?_⟩,
      List.forall_mem_singleton.mpr (hbare _ rfl rfl rfl rfl)⟩, List.forall_mem_cons.mpr ⟨?_, ?_⟩⟩
  · split
    · exact List.forall_mem_singleton.mpr (hbare _ rfl rfl rfl rfl)
    · exact List.forall_mem_nil _
  · obtain ⟨l, hl, hi⟩ := List.mem_flatten.mp hi
    obtain ⟨p, -, slot, hs, rfl⟩ := mem_zipWith (List.mem_reverse.mp hl)
    exact hpushed p slot hs i hi
  · obtain ⟨l, hl, hi⟩ := List.mem_flatten.mp hi
    obtain ⟨p, -, slot, hs, rfl⟩ := mem_zipWith hl
    exact hsent p slot hs i hi
  · exact ⟨List.forall_mem_nil _, rfl, rfl, fun l hl => (Option.some.inj hl).symm⟩
  · unfold callTail
    split
    · exact List.forall_mem_nil _
    · exact List.forall_mem_singleton.mpr (hbare _ rfl rfl rfl rfl)

/-! ## Writes to slots without names -/

namespace Purpose

/-- How many instructions write to a slot without a name: the one that fills it and, if it
is a counter, the one that steps it. -/
def writers : Purpose → Option Nat
  | «variable» _ => none
  | temporary => some 1
  | counter => some 2

end Purpose

/-- The writes to a slot that was handed out already. -/
def due (a : Allotment) (n : Nat) (as : List Allotment) : Nat := if a ∈ as then n else 0

namespace Stage

/-- The cells of globals are no part of the frame. -/
def Outside (cells : List Slot) : Prop := ∀ slot ∈ cells, ∃ name, slot.location = .cell name

variable {cells : List Slot} {s t : Stage} {all : List Allotment} {f : Frame} {a : Allotment}
  {n : Nat} {m : Memory} {slot : Slot}

/-- Memory of the frame that has a name is part of a variable. -/
theorem Tidy.variable_of_names (h : s.Tidy cells) (hc : Outside cells)
    (hs : s.generator.Names slot) {n : Int} (hm : .frame n ∈ slot.parts) :
    ∃ name, ⟨slot, .variable name⟩ ∈ s.allotted := by
  rcases hs with ⟨scope, hscope, name, hn⟩ | ⟨name, hn⟩
  · exact ⟨name, h.named scope hscope name slot hn⟩
  · obtain ⟨_, hl⟩ := hc slot (h.globals name slot hn)
    exact absurd rfl (Slot.part_cell hm hl n)

/-- A slot without a name shares nothing with what has a name. -/
theorem Tidy.unnamed (h : s.Tidy cells) (hc : Outside cells) (hall : Frame.Hands .new all f)
    (hsub : s.allotted ⊆ all) (ha : a ∈ all) (hn : a.purpose.writers = some n)
    (hm : m ∈ a.slot.parts) (hs : s.generator.Names slot) : m ∉ slot.parts := by
  obtain ⟨_, hl, -⟩ := hall.stacked.within (List.mem_map_of_mem ha)
  obtain ⟨k, rfl, -⟩ := Slot.part_frame hm hl
  intro hm'
  obtain ⟨name, hv⟩ := h.variable_of_names hc hs hm'
  cases hall.unshared a ha _ (hsub hv) _ hm hm'
  cases hn

/-- The variable that a loop counts in shares nothing with a slot without a name. -/
theorem Tidy.copy_ne (h : s.Tidy cells) (hc : Outside cells) (hall : Frame.Hands .new all f)
    (ha : a ∈ all) (hn : a.purpose.writers = some n) (hm : m ∈ a.slot.parts)
    {leave : Stage → Stage} (hcounts : CountsIn s slot t leave) (hsub : t.allotted ⊆ all) :
    m ≠ slot.low := by
  rintro rfl
  cases hcounts with
  | there hs _ => exact h.unnamed hc hall hsub ha hn hm hs slot.low_mem_parts
  | own name =>
    cases hall.unshared a ha _ (hsub List.mem_cons_self) _ hm (Slot.low_mem_parts _)
    cases hn

/-- The slot that is handed out next lies below those handed out before. -/
theorem Tidy.fresh_notMem (h : s.Tidy cells) (type : ValueType) (purpose : Purpose) :
    ⟨s.fresh type, purpose⟩ ∉ s.allotted := by
  intro hmem
  obtain ⟨offset, hl, -, hlow, -⟩ := h.handed.stacked.within (List.mem_map_of_mem hmem)
  have hpos := type.size_pos
  cases hl
  change -s.generator.frame.used ≤ -(s.generator.frame.used + type.size) at hlow
  omega

end Stage

theorem due_cons {b : Allotment} {as : List Allotment} (h : b ∉ as) (a : Allotment) (n : Nat) :
    due a n (b :: as) = (if a = b then n else 0) + due a n as := by
  unfold due
  by_cases hab : a = b
  · subst hab
    simp [h]
  · simp [hab]

theorem CountsIn.due_eq {s t : Stage} {slot : Slot} {leave : Stage → Stage}
    (h : CountsIn s slot t leave) {a : Allotment} {n : Nat} (hn : a.purpose.writers = some n) :
    due a n t.allotted = due a n s.allotted := by
  cases h with
  | there => rfl
  | own name =>
    refine if_congr ⟨fun h => (List.mem_cons.mp h).resolve_left ?_, List.mem_cons_of_mem _⟩ rfl rfl
    rintro rfl
    cases hn

/-- What fills a slot writes each part once, and writes to no other slot. -/
theorem Frame.Hands.writes_fill {all : List Allotment} {f : Frame}
    (hall : Frame.Hands .new all f) {a b : Allotment} (ha : a ∈ all) (hb : b ∈ all)
    {c : List Instruction} (hc : b.slot.Fills c) {m : Memory} (hm : m ∈ a.slot.parts) :
    writes m c = if a = b then 1 else 0 := by
  rw [hc.writes]
  refine if_congr ⟨fun h => hall.unshared a ha b hb m hm h, ?_⟩ rfl rfl
  rintro rfl
  exact hm

open Stage

section

variable {cells : List Slot} {all : List Allotment} {f : Frame} {a : Allotment} {n : Nat}
  {m : Memory}

/-- Of the slots without a name, code writes those that it was handed, as often as is due,
and no others. -/
theorem Makes.written (hc : Outside cells) (hall : Frame.Hands .new all f) (ha : a ∈ all)
    (hn : a.purpose.writers = some n) (hm : m ∈ a.slot.parts) {s t : Stage}
    {c : List Instruction} (h : Makes cells s c t) (hr : s.generator.Rooted)
    (hs : s.Tidy cells) (hsub : t.allotted ⊆ all) :
    writes m c + due a n s.allotted = due a n t.allotted := by
  have hsilent : ∀ {c : List Instruction} {k : Nat}, (∀ i ∈ c, m ∉ i.stores) →
      writes m c + k = k := fun h => by rw [writes_eq_zero h, Nat.zero_add]
  induction h with
  | @plain s g c hp h =>
    have hs' := hs.congr (t := ⟨g, s.allotted⟩) hp.frame hp.globals rfl
    refine hsilent fun i hi hm' => ?_
    obtain ⟨slot, hslot, hp⟩ := (h i hi).stores m hm'
    exact hs'.unnamed hc hall hsub ha hn hm hslot hp
  | @append s t u c d h h' ih ih' =>
    have hb' := h'.before ((h.before hr).rooted hr)
    have i₁ := ih hr hs fun _ hx => hsub (hb'.allotted.subset hx)
    have i₂ := ih' ((h.before hr).rooted hr) (h.tidy hs) hsub
    rw [writes_append]
    omega
  | @fill s type c h =>
    change writes m c + _ = due a n (⟨s.fresh type, .temporary⟩ :: s.allotted)
    rw [due_cons (hs.fresh_notMem type _), hall.writes_fill ha (hsub List.mem_cons_self) h hm]
    split
    · next heq =>
      subst heq
      cases hn
      rfl
    · rfl
  | @declare s name type mutable =>
    refine hsilent (List.forall_mem_nil _) |>.trans (if_congr ?_ rfl rfl)
    refine ⟨List.mem_cons_of_mem _, fun h => (List.mem_cons.mp h).resolve_left ?_⟩
    rintro rfl
    cases hn
  | rebind => exact hsilent (List.forall_mem_nil _)
  | scope h ih => exact ih (List.cons_ne_nil _ _) hs.pushed hsub
  | @divide s operator h =>
    refine hsilent ?_
    cases operator <;> cases h <;> simp [Arithmetic.integerCode]
  | call _ h =>
    refine hsilent fun i hi => ?_
    rw [(calling_callCode _ _ i hi).stores]
    exact List.not_mem_nil
  | @branch s t u v c d e type h₁ h₂ h₃ ih₁ ih₂ ih₃ =>
    obtain ⟨-, hr₁, b₂, hr₂, b₃⟩ := branch_stages hr h₁ h₂ h₃
    have t₁ := h₁.tidy (hs.congr rfl rfl rfl)
    have i₁ := ih₁ hr (hs.congr rfl rfl rfl) fun _ hx => hsub ((b₂.trans b₃).allotted.subset hx)
    have i₂ := ih₂ hr₁ t₁ fun _ hx => hsub (b₃.allotted.subset hx)
    have i₃ := ih₃ hr₂ (h₂.tidy t₁) hsub
    change writes m c + due a n s.allotted = _ at i₁
    simp
    omega
  | @whileLoop s t u c d type h₁ h₂ ih₁ ih₂ =>
    have hr₁ := (h₁.before hr).rooted hr
    have b₂ := Stage.Before.looped (h₂.before hr₁)
    have t₁ := h₁.tidy (hs.congr rfl rfl rfl)
    have i₁ : writes m c + due a n s.allotted = due a n t.allotted :=
      ih₁ hr (hs.congr rfl rfl rfl) fun _ hx => hsub (b₂.allotted.subset hx)
    have i₂ : writes m d + due a n t.allotted = due a n u.looped.allotted :=
      ih₂ hr₁ (t₁.congr rfl rfl rfl) hsub
    simp
    omega
  | @doWhile s t u c d type h₁ h₂ ih₁ ih₂ =>
    have b₁ := Stage.Before.looped (h₁.before hr)
    have hr₁ := b₁.rooted hr
    have b₂ := h₂.before hr₁
    have t₁ := h₁.tidy (hs.congr rfl rfl rfl)
    have i₁ : writes m c + due a n s.allotted = due a n t.allotted :=
      ih₁ hr (hs.congr rfl rfl rfl) fun _ hx => hsub (b₂.allotted.subset hx)
    have i₂ : writes m d + due a n t.allotted = due a n u.allotted :=
      ih₂ hr₁ (t₁.congr rfl rfl rfl) hsub
    simp
    omega
  | @forLoop s t u v w c d e copy leave slots h₁ hcounter h₂ hlimit hstep hcounts h₃ ih₁ ih₂ ih₃ =>
    obtain ⟨-, hr₁, b₂, -, hr₃, b₃, b₄⟩ := forLoop_stages hr h₁ h₂ hcounts h₃
    have t₁ := h₁.tidy (hs.congr rfl rfl rfl)
    have t₂ := h₂.tidy (t₁.handing .integer (.inr rfl))
    have hu : ∀ x ∈ u.allotted, x ∈ all := fun x hx => hsub (b₄.allotted.subset hx)
    have hthere : ∀ x ∈ (t.handing .integer .counter).allotted, x ∈ all := fun x hx =>
      hu x (b₂.allotted.subset hx)
    have i₁ : writes m c + due a n s.allotted = due a n t.allotted :=
      ih₁ hr (hs.congr rfl rfl rfl) fun x hx => hthere x (List.mem_cons_of_mem _ hx)
    have i₂ : writes m d + due a n (⟨slots.counter, .counter⟩ :: t.allotted) =
        due a n u.allotted := by
      rw [hcounter]
      exact ih₂ hr₁ (t₁.handing .integer (.inr rfl)) hu
    have i₃ : writes m e + due a n v.allotted = due a n (leave w.looped).allotted := by
      rw [hcounts.sameAllotted]
      refine ih₃ hr₃ ((t₂.counting hcounts).1.congr rfl rfl rfl) ?_
      rwa [hcounts.sameAllotted] at hsub
    rw [hcounts.due_eq hn] at i₃
    have hfresh : ⟨slots.counter, .counter⟩ ∉ t.allotted := hcounter ▸ t₁.fresh_notMem _ _
    rw [due_cons hfresh] at i₂
    have hstore : writes m slots.counter.storeCode =
        if a = ⟨slots.counter, .counter⟩ then 1 else 0 := by
      rw [hcounter]
      exact hall.writes_fill ha (hthere _ List.mem_cons_self) .result hm
    have hcopy : m ≠ copy.low := t₂.copy_ne hc hall ha hn hm hcounts fun x hx => hsub (by
      rw [hcounts.sameAllotted]
      exact b₃.allotted.subset hx)
    rw [writes_append, writes_append, writes_append, writes_append, writes_append,
      writes_lapHead _ hcopy, writes_lapTail _ (hcounter ▸ rfl)]
    by_cases hab : a = ⟨slots.counter, .counter⟩
    · have htwo : n = 2 := by
        subst hab
        cases hn
        rfl
      rw [if_pos hab] at i₂ hstore
      omega
    · rw [if_neg hab] at i₂ hstore
      omega
  | @topLevel s t c h ih =>
    have i : writes m c + due a n s.allotted = due a n t.allotted :=
      ih hr (hs.congr rfl rfl rfl) hsub
    simp
    exact i

end

end ScriptLang
