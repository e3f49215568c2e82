import ScriptLang.Codegen.Transfer

/-!
# Passing arguments

The first six arguments that are no floats and the first eight floats travel in
registers, the others on the stack, the first of them lowest. Caller and callee
read the same assignment off the types.
-/

namespace ScriptLang

open Assembly

/-- Where an argument travels. -/
inductive Passage where
  | register (register : Register)
  | float (register : FloatRegister)
  | stack (index : Nat)
  deriving DecidableEq

namespace Passage

/-- Assigns what is left of the registers, behind `stacked` arguments on the stack. -/
def assign : List Register → List FloatRegister → Nat → List ValueType → List Passage
  | _, _, _, [] => []
  | rs, x :: xs, stacked, .float :: ts => .float x :: assign rs xs stacked ts
  | rs, [], stacked, .float :: ts => .stack stacked :: assign rs [] (stacked + 1) ts
  | r :: rs, xs, stacked, _ :: ts => .register r :: assign rs xs stacked ts
  | [], xs, stacked, _ :: ts => .stack stacked :: assign [] xs (stacked + 1) ts

/-- Where arguments of given types travel. -/
def ofTypes : List ValueType → List Passage :=
  assign [.rdi, .rsi, .rdx, .rcx, .r8, .r9]
    [.xmm0, .xmm1, .xmm2, .xmm3, .xmm4, .xmm5, .xmm6, .xmm7] 0

def isFloat : Passage → Bool
  | float _ => true
  | _ => false

/-- In the callee: stores the argument in a slot. Arguments on the stack lie above
the return address and the caller's frame pointer. -/
def receive (p : Passage) (slot : Slot) : List Instruction :=
  match p with
  | register r => [.move (.register r) (.memory slot.low)]
  | float x => [.storeFloat x slot.low]
  | stack i =>
    [.move (.memory (.frame (16 + 8 * i))) (.register .rax),
     .move (.register .rax) (.memory slot.low)]

/-- In the caller: loads the register from the slot that holds the argument. -/
def send (p : Passage) (slot : Slot) : List Instruction :=
  match p with
  | register r => [.move (.memory slot.low) (.register r)]
  | float x => [.loadFloat slot.low x]
  | stack _ => []

/-- In the caller: pushes an argument that travels on the stack. -/
def pushed (p : Passage) (slot : Slot) : List Instruction :=
  match p with
  | stack _ => [.push (.memory slot.low)]
  | _ => []

end Passage

/-- Calls a function whose arguments are in slots. The stack stays aligned to 16
bytes at the call, and vector registers in use are counted in `%eax`. -/
def callCode (symbol : String) (slots : List Slot) : List Instruction :=
  let passages := Passage.ofTypes (slots.map (·.type))
  let pushes := (List.zipWith Passage.pushed passages slots).reverse.flatten
  let padding := if pushes.length % 2 = 1 then 8 else 0
  let cleanup := 8 * pushes.length + padding
  (if padding = 0 then [] else [.integer .subtract (.immediate padding) .rsp]) ++
  pushes ++ (List.zipWith Passage.send passages slots).flatten ++
  [.moveLong (passages.countP (·.isFloat)) .rax, .call (.symbol symbol)] ++
  (if cleanup = 0 then [] else [.integer .add (.immediate cleanup) .rsp])

end ScriptLang
