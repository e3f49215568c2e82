import ScriptLang.Assembly.Instruction

/-!
# What instructions name

The memory an instruction reads or writes through its operands, the labels it places,
jumps to or takes the address of, and whether it leaves the stack alone.
-/

namespace ScriptLang.Assembly

/-- The memory of an operand. -/
@[simp] def Operand.memories : Operand → List Memory
  | memory m => [m]
  | _ => []

/-- The label that memory is addressed by. -/
@[simp] def Memory.label? : Memory → Option Label
  | data l _ => some l
  | _ => none

namespace Instruction

/-- The memory an instruction reads or writes, or computes the address of. -/
@[simp] def memories : Instruction → List Memory
  | move s t => s.memories ++ t.memories
  | addressOffset n .rbp _ => [.frame n]
  | integer _ s _ | bits _ s _ | bitsByte _ s _ | compare s _ | push s => s.memories
  | compareByte _ m | loadFloat m _ | storeFloat _ m | floatMemory _ m _ => [m]
  | _ => []

/-- The memory an instruction writes. -/
@[simp] def stores : Instruction → List Memory
  | move _ t => t.memories
  | storeFloat _ m => [m]
  | _ => []

/-- The label an instruction places. -/
@[simp] def placed? : Instruction → Option Label
  | label l => some l
  | _ => none

/-- Where an instruction may jump to. -/
@[simp] def target? : Instruction → Option Label
  | jump l | jumpIf _ l => some l
  | _ => none

/-- The function of the listing that an instruction calls. -/
@[simp] def callee? : Instruction → Option Label
  | call l => some l
  | _ => none

/-- The label an instruction takes the address of. -/
@[simp] def taken? : Instruction → Option Label
  | address l _ => some l
  | _ => none

/-- The labels of the data an instruction uses. -/
def references (i : Instruction) : List Label :=
  i.taken?.toList ++ i.memories.filterMap Memory.label?

/-- The registers an instruction gives a new value. A called function keeps the stack
pointer and the frame pointer, which is all that is asked of calls. -/
@[simp] def targets : Instruction → List Register
  | move _ (.register r) => [r]
  | moveWide _ r | moveLong _ r | address _ r | addressOffset _ _ r | clear r | integer _ _ r
  | bits _ _ r | bitsByte _ _ r | negate r | flipBit _ r | set _ r | extendByte _ r
  | moveIfNotEqual _ r | bitsOfFloat _ r | toInteger _ r => [r]
  | extendSign => [.rdx]
  | divide _ => [.rax, .rdx]
  | push _ | leave | «return» => [.rsp]
  | _ => []

/-- The stack pointer and the frame pointer stay as they are. -/
def Level (i : Instruction) : Prop := .rsp ∉ i.targets ∧ .rbp ∉ i.targets

instance (i : Instruction) : Decidable i.Level := inferInstanceAs (Decidable (_ ∧ _))

/-- The instruction leaves the stack alone, places no label, and does not lead to one. -/
def isPlain (i : Instruction) : Bool :=
  decide i.Level && i.placed?.isNone && i.callee?.isNone && i.target?.isNone

theorem of_isPlain {i : Instruction} (h : i.isPlain = true) :
    i.Level ∧ i.placed? = none ∧ i.callee? = none ∧ i.target? = none := by
  simpa only [isPlain, Bool.and_eq_true, decide_eq_true_eq, Option.isNone_iff_eq_none,
    and_assoc] using h

end Instruction

/-- The labels placed in code, in order. -/
def placed (code : List Instruction) : List Label := code.filterMap Instruction.placed?

/-- The labels that code may jump to. -/
def jumps (code : List Instruction) : List Label := code.filterMap Instruction.target?

/-- The functions of the listing that code calls. -/
def callees (code : List Instruction) : List Label := code.filterMap Instruction.callee?

/-- The labels of the data that code uses. -/
def references (code : List Instruction) : List Label := code.flatMap Instruction.references

/-- The number of instructions of code that write some memory. -/
def writes (m : Memory) (code : List Instruction) : Nat := code.countP (m ∈ ·.stores)

section

variable (i : Instruction) (c d : List Instruction) (m : Memory)

@[simp] theorem placed_nil : placed [] = [] := rfl

@[simp] theorem placed_cons : placed (i :: c) = i.placed?.toList ++ placed c := by
  unfold placed
  cases h : i.placed? with
  | none => rw [List.filterMap_cons_none h]; rfl
  | some l => rw [List.filterMap_cons_some h]; rfl

@[simp] theorem jumps_nil : jumps [] = [] := rfl

@[simp] theorem jumps_cons : jumps (i :: c) = i.target?.toList ++ jumps c := by
  unfold jumps
  cases h : i.target? with
  | none => rw [List.filterMap_cons_none h]; rfl
  | some l => rw [List.filterMap_cons_some h]; rfl

@[simp] theorem placed_append : placed (c ++ d) = placed c ++ placed d := List.filterMap_append

@[simp] theorem jumps_append : jumps (c ++ d) = jumps c ++ jumps d := List.filterMap_append

@[simp] theorem callees_append : callees (c ++ d) = callees c ++ callees d :=
  List.filterMap_append

@[simp] theorem references_append : references (c ++ d) = references c ++ references d :=
  List.flatMap_append

@[simp] theorem writes_nil : writes m [] = 0 := rfl

@[simp] theorem writes_cons : writes m (i :: c) = writes m c + if m ∈ i.stores then 1 else 0 := by
  rw [writes, List.countP_cons]
  simp only [decide_eq_true_eq]
  rfl

@[simp] theorem writes_append : writes m (c ++ d) = writes m c + writes m d :=
  List.countP_append

end

section

variable {c : List Instruction}

theorem placed_eq_nil (h : ∀ i ∈ c, i.placed? = none) : placed c = [] :=
  List.filterMap_eq_nil_iff.mpr h

theorem jumps_eq_nil (h : ∀ i ∈ c, i.target? = none) : jumps c = [] :=
  List.filterMap_eq_nil_iff.mpr h

theorem Instruction.memories_of_stores {i : Instruction} {m : Memory} (h : m ∈ i.stores) :
    m ∈ i.memories := by
  cases i with
  | move s t => exact List.mem_append_right _ h
  | storeFloat s t => exact h
  | _ => cases h

theorem writes_eq_zero {m : Memory} (h : ∀ i ∈ c, m ∉ i.stores) : writes m c = 0 :=
  List.countP_eq_zero.mpr fun i hi => by simpa only [decide_eq_true_eq] using h i hi

end

end ScriptLang.Assembly
