import ScriptLang.Assembly.Listing
import ScriptLang.Proofs.Assembly.Mention

/-!
# The stack along control flow

Where control can be in code that is entered at its start, with the stack pointer and the
frame pointer there. Every way that labels and jumps leave open is followed. Called
functions give both pointers back, which the calling convention asks of them.
-/

namespace ScriptLang.Assembly

structure Pointers where
  stack : Int
  frame : Int

namespace Instruction

/-- What an instruction may do to the pointers. An instruction that is not known to keep a
pointer may leave anything in it, as `leave` does with the frame pointer. -/
def Moves (p q : Pointers) : Instruction → Prop
  | push _ => q = ⟨p.stack - 8, p.frame⟩
  | move (.register .rsp) (.register .rbp) => q = ⟨p.stack, p.stack⟩
  | integer .subtract (.immediate n) .rsp => q = ⟨p.stack - n, p.frame⟩
  | integer .add (.immediate n) .rsp => q = ⟨p.stack + n, p.frame⟩
  | leave => q.stack = p.frame + 8
  | i => (.rsp ∉ i.targets → q.stack = p.stack) ∧ (.rbp ∉ i.targets → q.frame = p.frame)

/-- Whether control may go on to the next instruction. -/
def falls : Instruction → Bool
  | jump _ | «return» => false
  | _ => true

/-- Whether a function is called, of the listing or of a library. -/
def isCall : Instruction → Bool
  | call _ | callLibrary _ => true
  | _ => false

/-- The bytes an instruction puts on the stack, negative if it takes some off. -/
def shift : Instruction → Int
  | push _ => 8
  | integer .subtract (.immediate n) .rsp => n
  | integer .add (.immediate n) .rsp => -n
  | _ => 0

end Instruction

/-- The handlers of traps, as they stand behind the functions of a listing. -/
def handlers : List Instruction := Trap.all.flatMap Trap.handler

/-- The places control can be at, with the pointers there. -/
inductive Visits (code : List Instruction) (start : Pointers) : Nat → Pointers → Prop
  | entry : Visits code start 0 start
  | next {i p q instruction} : Visits code start i p → code[i]? = some instruction →
    instruction.falls = true → instruction.Moves p q → Visits code start (i + 1) q
  | jump {i j p instruction l} : Visits code start i p → code[i]? = some instruction →
    instruction.target? = some l → code[j]? = some (.label l) → Visits code start j p

/-- The bytes that code puts on the stack, if it is run through. -/
def depth : List Instruction → Int
  | [] => 0
  | i :: code => i.shift + depth code

section

variable (c d : List Instruction) (i : Instruction)

@[simp] theorem depth_nil : depth [] = 0 := rfl

@[simp] theorem depth_cons : depth (i :: c) = i.shift + depth c := rfl

@[simp] theorem depth_append : depth (c ++ d) = depth c + depth d := by
  induction c with
  | nil => simp
  | cons i c ih => simp [ih, Int.add_assoc]

end

/-- The instruction moves the stack pointer by its shift, and keeps the frame pointer. -/
def Instruction.Tracked (i : Instruction) : Prop :=
  ∀ p q, i.Moves p q → q = ⟨p.stack - i.shift, p.frame⟩

theorem Instruction.Level.shift {i : Instruction} (h : i.Level) : i.shift = 0 := by
  unfold Instruction.shift
  split
  · exact absurd (by simp) h.1
  · exact absurd (by simp) h.1
  · exact absurd (by simp) h.1
  · rfl

theorem Instruction.Level.tracked {i : Instruction} (h : i.Level) : i.Tracked := by
  intro p q hm
  rw [h.shift, Int.sub_zero]
  have hkeep : (.rsp ∉ i.targets → q.stack = p.stack) ∧
      (.rbp ∉ i.targets → q.frame = p.frame) := by
    unfold Instruction.Moves at hm
    split at hm
    · exact absurd (by simp) h.1
    · exact absurd (by simp) h.2
    · exact absurd (by simp) h.1
    · exact absurd (by simp) h.1
    · exact absurd (by simp) h.1
    · exact hm
  rw [← hkeep.1 h.1, ← hkeep.2 h.2]

end ScriptLang.Assembly
