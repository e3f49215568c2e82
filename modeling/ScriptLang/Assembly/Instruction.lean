import ScriptLang.Assembly.Operand

/-!
# Instructions

The instructions that compiled programs consist of, and their text. The source of
an instruction comes first and its target last, as it is written.
-/

namespace ScriptLang.Assembly

/-- Integer arithmetic on 64 bits. -/
inductive IntegerOp where
  | add | subtract | multiply
  deriving DecidableEq

inductive BitOp where
  | and | or | exclusive
  deriving DecidableEq

inductive FloatOp where
  | add | subtract | multiply | divide
  deriving DecidableEq

/-- The functions of the C library that compiled programs call. -/
inductive LibraryFunction where
  | malloc | sprintf | printf | strlen | strcpy | strcat | strcmp | fmod | fprintf | exit
  deriving DecidableEq

inductive Instruction where
  | label (label : Label)
  | move (source target : Operand)
  /-- A constant of 64 bits. -/
  | moveWide (value : Int) (target : Register)
  /-- A constant into the low half, which clears the high one. -/
  | moveLong (value : Int) (target : Register)
  | address (label : Label) (target : Register)
  | addressOffset (offset : Int) (base target : Register)
  /-- Exclusive or of the low half with itself, which makes the register zero. -/
  | clear (target : Register)
  | integer (operator : IntegerOp) (source : Operand) (target : Register)
  | bits (operator : BitOp) (source : Operand) (target : Register)
  | bitsByte (operator : BitOp) (source : Operand) (target : Register)
  | negate (target : Register)
  | flipBit (bit : Nat) (target : Register)
  | extendSign
  | divide (divisor : Register)
  | test (register : Register)
  | compare (source : Operand) (target : Register)
  | compareLong (value : Int) (target : Register)
  | compareByte (value : Int) (target : Memory)
  | set (condition : Condition) (target : Register)
  | extendByte (source target : Register)
  | moveIfNotEqual (source target : Register)
  | loadFloat (source : Memory) (target : FloatRegister)
  | storeFloat (source : FloatRegister) (target : Memory)
  | moveFloat (source target : FloatRegister)
  | clearFloat (target : FloatRegister)
  | bitsOfFloat (source : FloatRegister) (target : Register)
  | floatOfBits (source : Register) (target : FloatRegister)
  | float (operator : FloatOp) (source target : FloatRegister)
  | floatMemory (operator : FloatOp) (source : Memory) (target : FloatRegister)
  | compareFloat (source target : FloatRegister)
  /-- As `compareFloat`, but quiet on NaN. -/
  | compareFloatQuiet (source target : FloatRegister)
  | toFloat (source : Register) (target : FloatRegister)
  | toInteger (source : FloatRegister) (target : Register)
  | jump (target : Label)
  | jumpIf (condition : Condition) (target : Label)
  | call (function : Label)
  | callLibrary (function : LibraryFunction)
  | push (source : Operand)
  | leave
  | return
  deriving DecidableEq

def IntegerOp.mnemonic : IntegerOp → String
  | add => "addq"
  | subtract => "subq"
  | multiply => "imulq"

def BitOp.mnemonic : BitOp → String
  | and => "and"
  | or => "or"
  | exclusive => "xor"

def FloatOp.mnemonic : FloatOp → String
  | add => "addsd"
  | subtract => "subsd"
  | multiply => "mulsd"
  | divide => "divsd"

def LibraryFunction.name : LibraryFunction → String
  | malloc => "malloc"
  | sprintf => "sprintf"
  | printf => "printf"
  | strlen => "strlen"
  | strcpy => "strcpy"
  | strcat => "strcat"
  | strcmp => "strcmp"
  | fmod => "fmod"
  | fprintf => "fprintf"
  | exit => "exit"

namespace Instruction

/-- The instruction without its line's indentation. -/
def text : Instruction → String
  | label l => s!"{l.text}:"
  | move s t => s!"movq {s.quad}, {t.quad}"
  | moveWide n t => s!"movabsq ${n}, {t.quad}"
  | moveLong n t => s!"movl ${n}, {t.long}"
  | address l t => s!"leaq {l.text}(%rip), {t.quad}"
  | addressOffset n b t => s!"leaq {n}({b.quad}), {t.quad}"
  | clear t => s!"xorl {t.long}, {t.long}"
  | integer o s t => s!"{o.mnemonic} {s.quad}, {t.quad}"
  | bits o s t => s!"{o.mnemonic}q {s.quad}, {t.quad}"
  | bitsByte o s t => s!"{o.mnemonic}b {s.byte}, {t.byte}"
  | negate t => s!"negq {t.quad}"
  | flipBit n t => s!"btcq ${n}, {t.quad}"
  | extendSign => "cqto"
  | divide d => s!"idivq {d.quad}"
  | test r => s!"testq {r.quad}, {r.quad}"
  | compare s t => s!"cmpq {s.quad}, {t.quad}"
  | compareLong n t => s!"cmpl ${n}, {t.long}"
  | compareByte n t => s!"cmpb ${n}, {t.text}"
  | set c t => s!"set{c.suffix} {t.byte}"
  | extendByte s t => s!"movzbq {s.byte}, {t.quad}"
  | moveIfNotEqual s t => s!"cmovneq {s.quad}, {t.quad}"
  | loadFloat s t => s!"movsd {s.text}, {t.text}"
  | storeFloat s t => s!"movsd {s.text}, {t.text}"
  | moveFloat s t => s!"movapd {s.text}, {t.text}"
  | clearFloat t => s!"pxor {t.text}, {t.text}"
  | bitsOfFloat s t => s!"movq {s.text}, {t.quad}"
  | floatOfBits s t => s!"movq {s.quad}, {t.text}"
  | float o s t => s!"{o.mnemonic} {s.text}, {t.text}"
  | floatMemory o s t => s!"{o.mnemonic} {s.text}, {t.text}"
  | compareFloat s t => s!"comisd {s.text}, {t.text}"
  | compareFloatQuiet s t => s!"ucomisd {s.text}, {t.text}"
  | toFloat s t => s!"cvtsi2sdq {s.quad}, {t.text}"
  | toInteger s t => s!"cvttsd2siq {s.text}, {t.quad}"
  | jump l => s!"jmp {l.text}"
  | jumpIf c l => s!"j{c.suffix} {l.text}"
  | call f => s!"call {f.text}"
  | callLibrary f => s!"call {f.name}@PLT"
  | push s => s!"pushq {s.quad}"
  | leave => "leave"
  | «return» => "ret"

/-- The instruction as a line of a listing. Only labels are not indented. -/
def line : Instruction → String
  | label l => (label l).text ++ "\n"
  | i => "    " ++ i.text ++ "\n"

/-- Instructions as lines of a listing. -/
def lines (code : List Instruction) : String := String.join (code.map line)

end Instruction

end ScriptLang.Assembly
