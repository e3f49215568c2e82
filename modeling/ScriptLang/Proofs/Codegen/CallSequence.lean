import ScriptLang.Codegen.Convention
import ScriptLang.Proofs.Assembly.Stack

/-!
# The sequence of a call

Padding and arguments are put on the stack, the other arguments go to registers, the
function is called, and the stack is given back. The stack is aligned at the call.
-/

namespace ScriptLang

open Assembly

/-- The part of a call in front of the function's code: padding, arguments, and the number
of vector registers in use. -/
def callLead (slots : List Slot) : List Instruction :=
  let passages := Passage.ofTypes (slots.map (·.type))
  let pushes := (List.zipWith Passage.pushed passages slots).reverse.flatten
  (if pushes.length % 2 = 1 then [.integer .subtract (.immediate 8) .rsp] else []) ++
    pushes ++ (List.zipWith Passage.send passages slots).flatten ++
    [.moveLong (passages.countP (·.isFloat)) .rax]

/-- The bytes that the arguments of a call take on the stack, with the padding. -/
def callRoom (slots : List Slot) : Nat :=
  let pushes := (List.zipWith Passage.pushed (Passage.ofTypes (slots.map (·.type)))
    slots).reverse.flatten
  8 * pushes.length + if pushes.length % 2 = 1 then 8 else 0

/-- The part of a call behind the function's code. -/
def callTail (slots : List Slot) : List Instruction :=
  if callRoom slots = 0 then [] else [.integer .add (.immediate (callRoom slots)) .rsp]

theorem callCode_eq (symbol : String) (slots : List Slot) :
    callCode symbol slots = callLead slots ++ .call (.symbol symbol) :: callTail slots := by
  unfold callCode callLead callTail callRoom
  dsimp only
  split <;> simp

theorem callRoom_aligned (slots : List Slot) : 16 ∣ callRoom slots := by
  unfold callRoom
  dsimp only
  split <;> omega

theorem Passage.mem_pushed {p : Passage} {slot : Slot} {i : Instruction}
    (h : i ∈ p.pushed slot) : i = .push (.memory slot.low) := by
  cases p with
  | stack => exact List.mem_singleton.mp h
  | _ => cases h

theorem Passage.mem_assign {r : Register} {rs : List Register} {xs : List FloatRegister} {n : Nat}
    {ts : List ValueType} (h : .register r ∈ assign rs xs n ts) : r ∈ rs := by
  fun_induction assign rs xs n ts <;> grind

theorem mem_zipWith {α β γ : Type} {f : α → β → γ} {as : List α} {bs : List β} {x : γ}
    (h : x ∈ List.zipWith f as bs) : ∃ a ∈ as, ∃ b ∈ bs, x = f a b := by
  grind [List.mem_iff_getElem]

/-- An instruction of a call other than the call itself. -/
structure Preparing (i : Instruction) : Prop where
  tracked : i.Tracked
  isCall : i.isCall = false
  placed : i.placed? = none
  target : i.target? = none
  leaves : i ≠ .leave ∧ i ≠ .return

theorem Passage.preparing_send {p : Passage} {ts : List ValueType} (hp : p ∈ ofTypes ts)
    {slot : Slot} {i : Instruction} (h : i ∈ p.send slot) : Preparing i ∧ i.shift = 0 := by
  cases p with
  | register r =>
    cases List.mem_singleton.mp h
    have hr := mem_assign hp
    have hlevel : (Instruction.move (.memory slot.low) (.register r)).Level := by
      constructor <;>
      · intro hmem
        cases List.mem_singleton.mp hmem
        exact absurd hr (by decide)
    exact ⟨⟨hlevel.tracked, rfl, rfl, rfl, nofun, nofun⟩, rfl⟩
  | float x =>
    cases List.mem_singleton.mp h
    have hlevel : (Instruction.loadFloat slot.low x).Level := by simp [Instruction.Level]
    exact ⟨⟨hlevel.tracked, rfl, rfl, rfl, nofun, nofun⟩, rfl⟩
  | stack n => cases h

section

variable (slots : List Slot)

theorem preparing_pushes {i : Instruction} (h : i ∈ (List.zipWith Passage.pushed
    (Passage.ofTypes (slots.map (·.type))) slots).reverse.flatten) :
    Preparing i ∧ i.shift = 8 := by
  obtain ⟨l, hl, hi⟩ := List.mem_flatten.mp h
  obtain ⟨p, -, slot, -, rfl⟩ := mem_zipWith (List.mem_reverse.mp hl)
  rw [Passage.mem_pushed hi]
  exact ⟨⟨fun _ _ h => h, rfl, rfl, rfl, nofun, nofun⟩, rfl⟩

theorem preparing_sends {i : Instruction} (h : i ∈ (List.zipWith Passage.send
    (Passage.ofTypes (slots.map (·.type))) slots).flatten) : Preparing i ∧ i.shift = 0 := by
  obtain ⟨l, hl, hi⟩ := List.mem_flatten.mp h
  obtain ⟨p, hp, slot, -, rfl⟩ := mem_zipWith hl
  exact Passage.preparing_send hp hi

theorem preparing_callLead : ∀ i ∈ callLead slots, Preparing i := by
  refine List.forall_mem_append.mpr ⟨List.forall_mem_append.mpr
    ⟨List.forall_mem_append.mpr ⟨?_, fun i hi => (preparing_pushes slots hi).1⟩,
      fun i hi => (preparing_sends slots hi).1⟩, List.forall_mem_singleton.mpr ?_⟩
  · split
    · exact List.forall_mem_singleton.mpr ⟨fun _ _ h => h, rfl, rfl, rfl, nofun, nofun⟩
    · exact List.forall_mem_nil _
  · exact ⟨Instruction.Level.tracked (by simp [Instruction.Level]), rfl, rfl, rfl, nofun, nofun⟩

theorem preparing_callTail : ∀ i ∈ callTail slots, Preparing i := by
  unfold callTail
  split
  · exact List.forall_mem_nil _
  · refine List.forall_mem_singleton.mpr ⟨fun p q h => h.trans ?_, rfl, rfl, rfl, nofun, nofun⟩
    simp [Instruction.shift]

theorem depth_of_shift {c : List Instruction} {n : Int} (h : ∀ i ∈ c, i.shift = n) :
    depth c = n * c.length := by
  induction c with
  | nil => simp
  | cons i c ih =>
    obtain ⟨hi, hc⟩ := List.forall_mem_cons.mp h
    rw [depth_cons, hi, ih hc, List.length_cons, Int.natCast_succ, Int.mul_add, Int.mul_one,
      Int.add_comm]

theorem depth_callLead : depth (callLead slots) = callRoom slots := by
  unfold callLead callRoom
  dsimp only
  rw [depth_append, depth_append, depth_append,
    depth_of_shift fun i hi => (preparing_pushes slots hi).2,
    depth_of_shift fun i hi => (preparing_sends slots hi).2]
  split
  · simp [Instruction.shift]
    omega
  · simp [Instruction.shift]

theorem depth_callTail : depth (callTail slots) = -callRoom slots := by
  unfold callTail
  split
  · next h => simp [h]
  · simp [Instruction.shift]

theorem depth_callCode (symbol : String) : depth (callCode symbol slots) = 0 := by
  rw [callCode_eq, depth_append, depth_cons, depth_callLead, depth_callTail]
  simp only [Instruction.shift]
  omega

end

end ScriptLang
