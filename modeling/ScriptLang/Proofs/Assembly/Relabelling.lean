import Mathlib.Data.List.Forall2
import Mathlib.Logic.Embedding.Basic
import ScriptLang.Assembly.Listing
import ScriptLang.Proofs.Assembly.Mention

/-!
# Labels by other numbers

Numbered labels, and the labels of constants in the pools, are named in the order in which
they come to be. Code is the same but for that order if its instructions agree one by one,
on labels that correspond. A map of labels that knows what corresponds takes the one code
to the other.
-/

namespace ScriptLang.Assembly

/-- The name of the label does not hang on an order. -/
@[simp] def Label.isFixed : Label → Bool
  | numbered .. | string _ | float _ => false
  | _ => true

/-- So is the name of the label that memory is addressed by. -/
def Memory.isFixed (m : Memory) : Bool := m.label?.all Label.isFixed

def Memory.mapLabel (f : Label → Label) : Memory → Memory
  | data l offset => data (f l) offset
  | m => m

def Operand.mapLabel (f : Label → Label) : Operand → Operand
  | memory m => memory (m.mapLabel f)
  | o => o

namespace Instruction

/-- The labels an instruction names. -/
def labels (i : Instruction) : List Label :=
  i.placed?.toList ++ i.target?.toList ++ i.callee?.toList ++ i.references

/-- All labels an instruction names are fixed. -/
@[simp] def isFixed (i : Instruction) : Bool :=
  i.placed?.all Label.isFixed && i.target?.all Label.isFixed && i.callee?.all Label.isFixed &&
    i.taken?.all Label.isFixed && i.memories.all Memory.isFixed

theorem isFixed_of_mem_labels {i : Instruction} (h : i.isFixed = true) {l : Label}
    (hl : l ∈ i.labels) : l.isFixed = true := by
  simp only [isFixed, Memory.isFixed, Bool.and_eq_true, Option.all_eq_true, List.all_eq_true] at h
  obtain ⟨⟨⟨⟨hp, ht⟩, hc⟩, hta⟩, hm⟩ := h
  simp only [labels, references, List.mem_append, Option.mem_toList, List.mem_filterMap] at hl
  obtain ((hl | hl) | hl) | hl | ⟨m, hmem, hl⟩ := hl
  · exact hp l hl
  · exact ht l hl
  · exact hc l hl
  · exact hta l hl
  · exact hm m hmem l hl

/-- The instruction on other labels. -/
def mapLabels (f : Label → Label) : Instruction → Instruction
  | label l => label (f l)
  | move s t => move (s.mapLabel f) (t.mapLabel f)
  | address l t => address (f l) t
  | integer o s t => integer o (s.mapLabel f) t
  | bits o s t => bits o (s.mapLabel f) t
  | bitsByte o s t => bitsByte o (s.mapLabel f) t
  | compare s t => compare (s.mapLabel f) t
  | compareByte n t => compareByte n (t.mapLabel f)
  | loadFloat s t => loadFloat (s.mapLabel f) t
  | storeFloat s t => storeFloat s (t.mapLabel f)
  | floatMemory o s t => floatMemory o (s.mapLabel f) t
  | jump l => jump (f l)
  | jumpIf c l => jumpIf c (f l)
  | call l => call (f l)
  | push s => push (s.mapLabel f)
  | i => i

end Instruction

section

variable {f : Label → Label}

theorem Memory.mapLabel_eq_self {m : Memory} (h : ∀ l ∈ m.label?, f l = l) : m.mapLabel f = m := by
  cases m with
  | data l offset => rw [mapLabel, h l rfl]
  | _ => rfl

theorem Operand.mapLabel_eq_self {o : Operand}
    (h : ∀ l ∈ o.memories.filterMap Memory.label?, f l = l) : o.mapLabel f = o := by
  cases o with
  | memory m =>
    rw [mapLabel, Memory.mapLabel_eq_self fun l hl => h l ?_]
    exact List.mem_filterMap.mpr ⟨m, List.mem_singleton_self m, hl⟩
  | _ => rfl

/-- An instruction stays if all labels it names do. -/
theorem Instruction.mapLabels_eq_self {i : Instruction} (h : ∀ l ∈ i.labels, f l = l) :
    i.mapLabels f = i := by
  have hmemory : ∀ {m : Memory}, m ∈ i.memories → m.mapLabel f = m := fun hm =>
    Memory.mapLabel_eq_self fun l hl => h l <| List.mem_append_right _ <|
      List.mem_append_right _ (List.mem_filterMap.mpr ⟨_, hm, hl⟩)
  have hoperand : ∀ {o : Operand}, o.memories ⊆ i.memories → o.mapLabel f = o := fun ho =>
    Operand.mapLabel_eq_self fun l hl => by
      obtain ⟨m, hm, hl⟩ := List.mem_filterMap.mp hl
      exact h l <| List.mem_append_right _ <|
        List.mem_append_right _ (List.mem_filterMap.mpr ⟨m, ho hm, hl⟩)
  cases i with
  | label l | address l _ | jump l | jumpIf _ l | call l =>
    rw [mapLabels, h l (by simp [labels, references])]
  | move s t =>
    rw [mapLabels, hoperand (List.subset_append_left _ _), hoperand (List.subset_append_right _ _)]
  | integer _ s _ | bits _ s _ | bitsByte _ s _ | compare s _ | push s =>
    rw [mapLabels, hoperand (List.Subset.refl _)]
  | compareByte _ m | loadFloat m _ | storeFloat _ m | floatMemory _ m _ =>
    rw [mapLabels, hmemory (List.mem_singleton_self m)]
  | _ => rfl

end

/-- All labels that code names are fixed. -/
def FixedCode (c : List Instruction) : Prop := ∀ i ∈ c, i.isFixed = true

section

variable {i : Instruction} {c d : List Instruction} {b : Prop} [Decidable b]

@[simp] theorem fixedCode_nil : FixedCode [] := List.forall_mem_nil _

@[simp] theorem fixedCode_cons : FixedCode (i :: c) ↔ i.isFixed = true ∧ FixedCode c :=
  List.forall_mem_cons

@[simp] theorem fixedCode_append : FixedCode (c ++ d) ↔ FixedCode c ∧ FixedCode d :=
  List.forall_mem_append

theorem FixedCode.ite (hc : FixedCode c) (hd : FixedCode d) : FixedCode (if b then c else d) := by
  split
  · exact hc
  · exact hd

end

/-! ## Agreement -/

/-- The same instruction, on labels that correspond where they are not fixed: labels of the
code by `m`, labels of constants by `d`. -/
inductive Instruction.Agrees (m d : Label → Label → Prop) : Instruction → Instruction → Prop
  | fixed {i} : i.isFixed = true → Agrees m d i i
  | label {l l'} : m l l' → Agrees m d (.label l) (.label l')
  | jump {l l'} : m l l' → Agrees m d (.jump l) (.jump l')
  | jumpIf {l l'} (c) : m l l' → Agrees m d (.jumpIf c l) (.jumpIf c l')
  | address {l l'} (r) : d l l' → Agrees m d (.address l r) (.address l' r)
  | loadFloat {l l'} (x) : d l l' →
    Agrees m d (.loadFloat (.data l 0) x) (.loadFloat (.data l' 0) x)
  | floatMemory {l l'} (o x) : d l l' →
    Agrees m d (.floatMemory o (.data l 0) x) (.floatMemory o (.data l' 0) x)

/-- Code that agrees instruction by instruction. -/
def CodeAgrees (m d : Label → Label → Prop) : List Instruction → List Instruction → Prop :=
  List.Forall₂ (Instruction.Agrees m d)

section

variable {m d d' : Label → Label → Prop} {i i' : Instruction} {c c' e e' : List Instruction}
  {f : Label → Label}

namespace Instruction.Agrees

theorem mono (hd : ∀ l l', d l l' → d' l l') (h : Agrees m d i i') : Agrees m d' i i' := by
  cases h with
  | fixed h => exact .fixed h
  | label h => exact .label h
  | jump h => exact .jump h
  | jumpIf c h => exact .jumpIf c h
  | address r h => exact .address r (hd _ _ h)
  | loadFloat x h => exact .loadFloat x (hd _ _ h)
  | floatMemory o x h => exact .floatMemory o x (hd _ _ h)

/-- A map that takes labels to what they correspond to takes an instruction to one that
agrees with it. -/
theorem mapLabels (hf : ∀ l : Label, l.isFixed = true → f l = l)
    (hm : ∀ l, i.placed? = some l ∨ i.target? = some l → ∀ l', m l l' → f l = l')
    (hd : ∀ l l', d l l' → f l = l') (h : Agrees m d i i') : i.mapLabels f = i' := by
  cases h with
  | fixed h => exact mapLabels_eq_self fun l hl => hf l (isFixed_of_mem_labels h hl)
  | label h => exact congrArg Instruction.label (hm _ (.inl rfl) _ h)
  | jump h => exact congrArg Instruction.jump (hm _ (.inr rfl) _ h)
  | jumpIf c h => exact congrArg (Instruction.jumpIf c) (hm _ (.inr rfl) _ h)
  | address r h => exact congrArg (Instruction.address · r) (hd _ _ h)
  | loadFloat x h => exact congrArg (fun l => Instruction.loadFloat (.data l 0) x) (hd _ _ h)
  | floatMemory o x h =>
    exact congrArg (fun l => Instruction.floatMemory o (.data l 0) x) (hd _ _ h)

end Instruction.Agrees

namespace CodeAgrees

theorem nil : CodeAgrees m d [] [] := List.Forall₂.nil

theorem cons (hi : Instruction.Agrees m d i i') (h : CodeAgrees m d c c') :
    CodeAgrees m d (i :: c) (i' :: c') := List.Forall₂.cons hi h

theorem mono (hd : ∀ l l', d l l' → d' l l') (h : CodeAgrees m d c c') : CodeAgrees m d' c c' :=
  List.Forall₂.imp (fun _ _ => Instruction.Agrees.mono hd) h

theorem append (h : CodeAgrees m d c c') (h' : CodeAgrees m d e e') :
    CodeAgrees m d (c ++ e) (c' ++ e') := List.rel_append h h'

/-- Code without other labels agrees with itself. -/
theorem fixed (h : FixedCode c) : CodeAgrees m d c c :=
  List.forall₂_same.mpr fun i hi => .fixed (h i hi)

theorem mapLabels (hf : ∀ l : Label, l.isFixed = true → f l = l)
    (hm : ∀ l, l ∈ placed c ∨ l ∈ jumps c → ∀ l', m l l' → f l = l')
    (hd : ∀ l l', d l l' → f l = l') (h : CodeAgrees m d c c') :
    c.map (Instruction.mapLabels f) = c' := by
  induction h with
  | nil => rfl
  | @cons i i' c c' hi _ ih =>
    have hhead : i.mapLabels f = i' := hi.mapLabels hf (fun l hl => hm l (by
      rcases hl with hl | hl
      · exact .inl (by rw [placed_cons, hl]; exact List.mem_cons_self)
      · exact .inr (by rw [jumps_cons, hl]; exact List.mem_cons_self))) hd
    rw [List.map_cons, hhead, ih fun l hl => hm l (by
      rw [placed_cons, jumps_cons]
      exact hl.imp (List.mem_append_right _) (List.mem_append_right _))]

theorem eq (hm : ∀ l l', m l l' → l = l') (hd : ∀ l l', d l l' → l = l')
    (h : CodeAgrees m d c c') : c = c' := by
  have hid : c.map (Instruction.mapLabels id) = c :=
    (List.map_congr_left fun i _ => Instruction.mapLabels_eq_self fun _ _ => rfl).trans
      (List.map_id c)
  exact hid.symm.trans (h.mapLabels (fun _ _ => rfl) (fun l _ => hm l) hd)

end CodeAgrees

end

/-! ## Renumbering -/

/-- Numbers that are related one to one, and stay below a bound, are so by an embedding. -/
theorem exists_embedding {r : Nat → Nat → Prop} {bound : Nat}
    (hf : ∀ n m m', r n m → r n m' → m = m') (hi : ∀ n n' m, r n m → r n' m → n = n')
    (hb : ∀ n m, r n m → m < bound) : ∃ f : Nat ↪ Nat, ∀ n m, r n m → f n = m := by
  classical
  let f := fun n => if h : ∃ m, r n m then h.choose else bound + n
  have hr : ∀ n m, r n m → f n = m := fun n m h => by
    have hex : ∃ m, r n m := ⟨m, h⟩
    rw [show f n = hex.choose from dif_pos hex]
    exact hf n _ m hex.choose_spec h
  have hout : ∀ n, (¬ ∃ m, r n m) → f n = bound + n := fun n h => dif_neg h
  refine ⟨⟨f, fun n n' he => ?_⟩, hr⟩
  by_cases h : ∃ m, r n m <;> by_cases h' : ∃ m, r n' m
  · obtain ⟨m, hm⟩ := h
    obtain ⟨m', hm'⟩ := h'
    rw [hr n m hm, hr n' m' hm'] at he
    subst he
    exact hi n n' m hm hm'
  · obtain ⟨m, hm⟩ := h
    have hlt := hb n m hm
    rw [hr n m hm, hout n' h'] at he
    omega
  · obtain ⟨m', hm'⟩ := h'
    have hlt := hb n' m' hm'
    rw [hout n h, hr n' m' hm'] at he
    omega
  · rw [hout n h, hout n' h'] at he
    omega

/-- Other numbers for labels and other places for constants, none of them twice. -/
structure Renumbering where
  number : Nat ↪ Nat
  string : Nat ↪ Nat
  float : Nat ↪ Nat

def Renumbering.label (ρ : Renumbering) : Label → Label
  | .numbered mark n => .numbered mark (ρ.number n)
  | .string i => .string (ρ.string i)
  | .float i => .float (ρ.float i)
  | l => l

theorem Renumbering.label_of_isFixed (ρ : Renumbering) {l : Label} (h : l.isFixed = true) :
    ρ.label l = l := by
  cases l with
  | numbered | string | float => cases h
  | _ => rfl

/-- The routine with its labels renumbered. -/
def Routine.renumber (ρ : Renumbering) (r : Routine) : Routine :=
  { r with body := r.body.map (Instruction.mapLabels ρ.label) }

/-- The second listing has the functions of the first in any order. Labels are renumbered,
and constants have other places in their pools. -/
structure Listing.Rearranged (ρ : Renumbering) (l l' : Listing) : Prop where
  cells : l'.cells = l.cells
  strings : l'.strings.Perm l.strings
  floats : l'.floats.Perm l.floats
  string : ∀ (i : Nat) (s : String), l.strings[i]? = some s → l'.strings[ρ.string i]? = some s
  float : ∀ (i : Nat) (bits : UInt64), l.floats[i]? = some bits →
    l'.floats[ρ.float i]? = some bits
  routines : l'.routines.Perm (l.routines.map (Routine.renumber ρ))

end ScriptLang.Assembly
